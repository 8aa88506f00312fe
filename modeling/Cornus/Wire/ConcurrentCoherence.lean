import Cornus.BlockCache.Backend
import Cornus.Wire.ConcurrentReplies

/-!
# Coherence once no request is outstanding

A cached byte may differ from the file while requests are in progress.  The
invariant gives the reason at every position: a write that covers the position
has yet to be admitted, was admitted and has yet to reach the store, or was
refused and has yet to verify its unit; or a fetch is about to replace the
block.  None of these is left once every call has returned.
-/

namespace Cornus.Wire

open List Option Mount

open BlockCache Lib Function

variable {Hash Entry : Type}

/-- Position `index` of block `b` lies in one of the units. -/
def InUnit (units : List (UnitHash Hash)) (b index : Nat) : Prop :=
  ∃ unit ∈ units, unit.blockIdx = b ∧ unit.subOff ≤ index ∧ index < unit.subOff + unit.subLen

/-- The write has reached the file and has yet to verify its unit at position
`index` of block `b`. -/
def WritePhase.Unverified (b index : Nat) : WritePhase Hash → Prop
  | .stored => True
  | .numbered _ => True
  | .replied _ => True
  | .delivered _ => True
  | .applying _ _ => True
  | .admitted _ _ _ => True
  | .verifying _ units => InUnit units b index
  | .dropping _ dropped units => dropped = b ∨ InUnit units b index
  | .sent => False
  | .returned => False

theorem WritePhase.Due.unverified {phase : WritePhase Hash}
    (due : phase.Due b) (index : Nat) : phase.Unverified b index := by
  cases phase with
  | stored | numbered | replied | delivered | applying | admitted => trivial
  | sent | verifying | dropping | returned => exact due.elim

/-- Why the byte cached at a position may differ from the file's. -/
inductive Accounted (mount : TellingMount Hash Entry) (log : List (Nat × Bytes))
    (net : Net Hash Entry) (b index : Nat) (value : UInt8) : Prop where
  | right (same : value = net.session.file.get (b * mount.chunk.bytes + index))
  /-- A write newer than the table entry covers the position. -/
  | later (unquiet : ¬fileWrites.Quiet log
      ((net.session.last b).getD 0) (b * mount.chunk.bytes + index))
  /-- The position's last write is older than the table entry and has yet to
  verify its unit. -/
  | refused (count : Nat) (subBlock : mount.features.subBlockHash = true)
      (behind : count < (net.session.last b).getD 0)
      (writer : fileWrites.LastWriter log count (b * mount.chunk.bytes + index))
      (has : net.HasCall fun call =>
        call.Number net.session.seq count ∧ call.phase.Unverified b index)
  /-- An admitted write that settles the position has yet to reach the
  store. -/
  | pending (has : net.HasCall fun call => call.phase.PendingAt b ∧
      (mount.features.subBlockHash = false ∨ fileWrites.Covers (call.off, call.data)
          (b * mount.chunk.bytes + index)))
  /-- An admitted fetch is about to replace the block. -/
  | filling (phase : FetchPhase Hash) (fetched : net.fetches (.block b) = some phase)
      (admitted : phase.Admitted)

/-- The bucket keeps whole blocks, zeros where nothing was ever written, and
every marked byte is accounted for. -/
structure Net.Cached (mount : TellingMount Hash Entry) (view : View Entry)
    (base : Bytes) (log : List (Nat × Bytes)) (net : Net Hash Entry) : Prop where
  sound : view.Sound net.session.bucket
  uniform : view.Uniform net.session.bucket
  clean : ∀ b index, index < mount.chunk.bytes →
    fileWrites.Quiet log 0 (b * mount.chunk.bytes + index) →
    base.len ≤ b * mount.chunk.bytes + index → view.byte net.session.bucket b index = 0
  accounted : ∀ b index, index < mount.chunk.bytes → view.Marked net.session.bucket b index →
    Accounted mount log net b index (view.byte net.session.bucket b index)

section Positions
variable {net next : Net Hash Entry} {b index : Nat} {value : UInt8} {count : Nat}

theorem Net.History.accounted_of_version (history : net.History mount base log)
    (after : (net.session.last b).getD 0 ≤ count) (within : count ≤ log.length)
    (same : value = (fileWrites.version base log count).get (b * mount.chunk.bytes + index)) :
    Accounted mount log net b index value := by
  by_cases quiet : fileWrites.Quiet log ((net.session.last b).getD 0)
      (b * mount.chunk.bytes + index)
  · apply Accounted.right
    rw [same, history.file]
    exact (version_get_eq within (quiet.mono after)).symm
  · exact .later quiet

/-- A byte past the end of a version that is at least as new as the table
entry, when it is zero unless the position was written. -/
theorem Net.History.accounted_of_past (history : net.History mount base log)
    (after : (net.session.last b).getD 0 ≤ count) (within : count ≤ log.length)
    (past : (fileWrites.version base log count).len ≤ b * mount.chunk.bytes + index)
    (clean : fileWrites.Quiet log 0 (b * mount.chunk.bytes + index) →
      base.len ≤ b * mount.chunk.bytes + index → value = 0) :
    Accounted mount log net b index value := by
  by_cases quiet : fileWrites.Quiet log ((net.session.last b).getD 0)
      (b * mount.chunk.bytes + index)
  · have unwritten := quiet_zero_of_past past (quiet.mono after)
    have beyond : base.len ≤ b * mount.chunk.bytes + index := Nat.le_trans (base_len_le count) past
    apply history.accounted_of_version after within
    rw [clean unwritten beyond, version_get_of_unwritten unwritten beyond]
  · exact .later quiet

variable {id : Nat} {session : Session Entry} {phase : WritePhase Hash}

theorem Accounted.setWrite (accounted : Accounted mount log net b index value)
    (here : net.writes id = some call) (file : session.file = net.session.file)
    (last : (session.last b).getD 0 = (net.session.last b).getD 0)
    (others : ∀ other found, other ≠ id → net.writes other = some found →
      found.phase = .stored → session.seq = net.session.seq)
    (mine : ∀ count, mount.features.subBlockHash = true → count < (net.session.last b).getD 0 →
      fileWrites.LastWriter log count (b * mount.chunk.bytes + index) →
      call.Number net.session.seq count → call.phase.Unverified b index →
      ({ call with phase } : WriteCall Hash).Number session.seq count ∧ phase.Unverified b index ∨
        value = net.session.file.get (b * mount.chunk.bytes + index))
    (idle : call.phase.PendingAt b → ¬(mount.features.subBlockHash = false ∨
      fileWrites.Covers (call.off, call.data) (b * mount.chunk.bytes + index))) :
    Accounted mount log (net.move id call session phase) b index value := by
  cases accounted with
  | right same =>
    apply Accounted.right
    simp only [Net.setWrite, file]
    exact same
  | later unquiet =>
    apply Accounted.later
    simp only [Net.setWrite, last]
    exact unquiet
  | refused count subBlock behind writer has =>
    obtain ⟨other, found, there, number, unverified⟩ := has
    by_cases same : other = id
    · subst same
      rw [here, some.injEq] at there
      subst there
      rcases mine count subBlock behind writer number unverified with
        kept | settled
      · refine .refused count subBlock ?_ writer ⟨other, _, update_self _ _ _, kept⟩
        simp only [Net.setWrite, last]
        exact behind
      · apply Accounted.right
        simp only [Net.setWrite, file]
        exact settled
    · refine .refused count subBlock ?_ writer
        ⟨other, found, (update_of_ne same _ _).trans there, number.of_seq ?_, unverified⟩
      · simp only [Net.setWrite, last]
        exact behind
      · exact others other found same there
  | pending has =>
    apply Accounted.pending
    obtain ⟨other, found, there, waiting, settles⟩ := has
    have ne : other ≠ id := by
      rintro rfl
      rw [here, some.injEq] at there
      subst there
      exact idle waiting settles
    exact ⟨other, found, (update_of_ne ne _ _).trans there, waiting, settles⟩
  | filling fetch fetched admitted => exact .filling fetch fetched admitted

theorem Accounted.of_eq (accounted : Accounted mount log net b index value)
    (file : next.session.file = net.session.file) (seq : next.session.seq = net.session.seq)
    (last : (next.session.last b).getD 0 = (net.session.last b).getD 0)
    (writes : next.writes = net.writes) (fetches : ∀ phase, net.fetches (.block b) = some phase →
      phase.Admitted → next.fetches (.block b) = some phase) :
    Accounted mount log next b index value := by
  cases accounted with
  | right same => exact .right (file ▸ same)
  | later unquiet => exact .later (last ▸ unquiet)
  | refused count subBlock behind writer has =>
    refine .refused count subBlock (last ▸ behind) writer ?_
    rw [seq]
    obtain ⟨other, found, there, holds⟩ := has
    exact ⟨other, found, writes ▸ there, holds⟩
  | pending has =>
    obtain ⟨other, found, there, holds⟩ := has
    exact .pending ⟨other, found, writes ▸ there, holds⟩
  | filling phase fetched admitted =>
    exact .filling phase (fetches phase fetched admitted) admitted

theorem Net.Cached.of_bucket (cached : net.Cached mount view base log)
    (bucket : next.session.bucket = net.session.bucket)
    (accounted : ∀ b index value, index < mount.chunk.bytes →
      view.Marked net.session.bucket b index → value = view.byte net.session.bucket b index →
      Accounted mount log net b index value → Accounted mount log next b index value) :
    next.Cached mount view base log where
  sound := bucket ▸ cached.sound
  uniform := bucket ▸ cached.uniform
  clean := bucket ▸ cached.clean
  accounted := by
    rw [bucket]
    intro b index inChunk marked
    exact accounted b index _ inChunk marked rfl (cached.accounted b index inChunk marked)

theorem Net.Cached.of_frame (cached : net.Cached mount view base log)
    (frame : view.Frame mount.chunk net.session.bucket next.session.bucket b)
    (uniform : view.Whole next.session.bucket b ∨ view.Vacant next.session.bucket b)
    (clean : ∀ index, index < mount.chunk.bytes →
      fileWrites.Quiet log 0 (b * mount.chunk.bytes + index) →
      base.len ≤ b * mount.chunk.bytes + index → view.byte next.session.bucket b index = 0)
    (here : ∀ index, index < mount.chunk.bytes → view.Marked next.session.bucket b index →
      Accounted mount log next b index (view.byte next.session.bucket b index))
    (elsewhere : ∀ other index value, other ≠ b → Accounted mount log net other index value →
      Accounted mount log next other index value) : next.Cached mount view base log where
  sound := frame.sound
  uniform := frame.uniform (fun _ => uniform) cached.uniform
  clean := by
    intro other index inChunk unwritten past
    by_cases same : other = b
    · subst same
      exact clean index inChunk unwritten past
    · rw [frame.byte other index same inChunk]
      exact cached.clean other index inChunk unwritten past
  accounted := by
    intro other index inChunk marked
    by_cases same : other = b
    · subst same
      exact here index inChunk marked
    · rw [frame.byte other index same inChunk]
      exact elsewhere other index _ same (cached.accounted other index inChunk
        ((frame.marked other index same inChunk).mp marked))

theorem Net.Cached.overwrite (cached : net.Cached mount view base log)
    (history : next.History mount base log)
    (overwrites : view.Overwrites mount.chunk net.session.bucket next.session.bucket b content)
    (newer : ∃ count, (next.session.last b).getD 0 ≤ count ∧
      count ≤ log.length ∧ ∀ index, index < content.len →
        content.get index = (fileWrites.version base log count).get (b * mount.chunk.bytes + index))
    (complete : content.len < mount.chunk.bytes → ∃ count, (next.session.last b).getD 0 ≤ count ∧
        count ≤ log.length ∧ (fileWrites.version base log count).len ≤
          b * mount.chunk.bytes + content.len)
    (elsewhere : ∀ other index value, other ≠ b → Accounted mount log net other index value →
      Accounted mount log next other index value) : next.Cached mount view base log := by
  obtain ⟨count, after, within, same⟩ := newer
  have clean : ∀ index, index < mount.chunk.bytes →
      fileWrites.Quiet log 0 (b * mount.chunk.bytes + index) →
      base.len ≤ b * mount.chunk.bytes + index → view.byte next.session.bucket b index = 0 := by
    intro index inChunk unwritten past
    by_cases below : index < content.len
    · rw [overwrites.inside index below, same index below]
      exact version_get_of_unwritten unwritten past
    · rcases overwrites.beyond index (Nat.not_lt.mp below) inChunk with
        zero | kept
      · exact zero
      · exact kept.trans (cached.clean b index inChunk unwritten past)
  refine cached.of_frame overwrites.toFrame (.inl overwrites.becomesWhole) clean ?_ elsewhere
  intro index inChunk _
  by_cases below : index < content.len
  · apply history.accounted_of_version after within
    rw [overwrites.inside index below, same index below]
  · obtain ⟨ending, afterToo, withinToo, ended⟩ := complete (by omega)
    exact history.accounted_of_past afterToo withinToo (by omega) (clean index inChunk)

end Positions

/-! ## Steps of a write call -/

variable {mount : TellingMount Hash Entry} {view : View Entry} {base : Bytes} {net : Net Hash Entry}
  {id : Nat} {call : WriteCall Hash} {session : Session Entry} {phase : WritePhase Hash}
  {reply : WriteReply Hash}

theorem WriteCall.Number.eq_seq {count : Nat} (counted : call.Number seq count)
    (numbered : call.phase.seqNo = some reply.seq) : count = reply.seq := by
  rcases counted with own | ⟨waiting, _⟩
  · rw [numbered, some.injEq] at own
    exact own.symm
  · rw [waiting] at numbered
    cases numbered

section

variable (cached : net.Cached mount view base log)
include cached

theorem Net.Cached.issue (free : net.writes id = none) (off : Nat) (data : Bytes) : (net.setWrite id
      { off, data, phase := .sent }).Cached mount view base log := by
  refine cached.of_bucket rfl ?_
  intro b index value _ _ _ accounted
  cases accounted with
  | right same => exact .right same
  | later unquiet => exact .later unquiet
  | refused count subBlock behind writer has =>
    exact .refused count subBlock behind writer (has.issue free)
  | pending has => exact .pending (has.issue free)
  | filling phase fetched admitted => exact .filling phase fetched admitted

variable (here : net.writes id = some call)
include here

theorem Net.Cached.store (history : net.History mount base log) (current : call.phase = .sent) :
    (net.move id call { net.session with file := fileWriteAt net.session.file call.off call.data
        } .stored).Cached mount view base (log ++ [(call.off, call.data)]) where
  __ := cached
  clean := by
    intro b index inChunk unwritten past
    apply cached.clean b index inChunk _ past
    intro place write _ found
    exact unwritten place write (Nat.zero_le _) (getElem?_append_of_some found)
  accounted := by
    intro b index inChunk marked
    by_cases covers : fileWrites.Covers (call.off, call.data) (b * mount.chunk.bytes + index)
    · apply Accounted.later
      intro quiet
      apply quiet log.length (call.off, call.data) _ _ covers
      · exact Nat.le_trans (history.last b) history.numbered
      · exact getElem?_concat_length
    · cases cached.accounted b index inChunk marked with
      | right same =>
        apply Accounted.right
        exact same.trans (fileWrites.untouched net.session.file (call.off, call.data) _ covers).symm
      | later unquiet =>
        apply Accounted.later
        intro quiet
        apply unquiet
        intro place write after found
        exact quiet place write after (getElem?_append_of_some found)
      | refused count subBlock behind writer has =>
        refine .refused count subBlock behind (writer.snoc covers) ?_
        apply has.setWrite here
        · exact fun _ _ _ _ holds => holds
        · rintro ⟨_, unverified⟩
          rw [current] at unverified
          exact unverified.elim
      | pending has =>
        apply Accounted.pending
        apply has.setWrite here
        · exact fun _ _ _ _ holds => holds
        · rintro ⟨waiting, _⟩
          rw [current] at waiting
          exact waiting.elim
      | filling phase fetched admitted =>
        exact .filling phase fetched admitted

section

variable (bucket : session.bucket = net.session.bucket) (file : session.file = net.session.file)
  (last : session.last = net.session.last)
include bucket file last

theorem Net.Cached.setWrite
    (others : ∀ other found, other ≠ id → net.writes other = some found →
      found.phase = .stored → session.seq = net.session.seq)
    (mine : ∀ b index count, index < mount.chunk.bytes → view.Marked net.session.bucket b index →
      mount.features.subBlockHash = true → count < (net.session.last b).getD 0 →
      fileWrites.LastWriter log count (b * mount.chunk.bytes + index) →
      call.Number net.session.seq count → call.phase.Unverified b index →
      ({ call with phase } : WriteCall Hash).Number session.seq count ∧ phase.Unverified b index ∨
        view.byte net.session.bucket b index = net.session.file.get (b * mount.chunk.bytes + index))
    (idle : ∀ b, ¬call.phase.PendingAt b) :
    (net.move id call session phase).Cached mount view base log := by
  refine cached.of_bucket bucket ?_
  intro b index value inChunk marked same accounted
  refine accounted.setWrite here file (by rw [last]) others ?_
    (fun waiting => absurd waiting (idle b))
  intro count subBlock behind writer number unverified
  rw [same]
  exact mine b index count inChunk marked subBlock behind writer number unverified

theorem Net.Cached.passes (seq : session.seq = net.session.seq) (before : call.phase ≠ .stored)
    (number : phase.seqNo = call.phase.seqNo) (unverified : ∀ b index, phase.Unverified b index)
    (idle : ∀ b, ¬call.phase.PendingAt b) :
    (net.move id call session phase).Cached mount view base log := by
  refine cached.setWrite here bucket file last (fun _ _ _ _ _ => seq) ?_ idle
  intro b index count _ _ _ _ _ counted _
  have numbered := counted.resolve_right fun waiting => before waiting.1
  exact .inl ⟨.inl (number.trans numbered), unverified b index⟩

end

theorem Net.Cached.bump (history : net.History mount base log) (current : call.phase = .stored) :
    (net.move id call { net.session with seq := net.session.seq + 1 } (.numbered (net.session.seq
        + 1))).Cached mount view base log := by
  refine cached.setWrite here rfl rfl rfl ?_ ?_ ?_
  · intro other found ne there waiting
    exact absurd (history.alone other found id call there here waiting current) ne
  · intro b index count _ _ _ _ _ counted _
    rcases counted with numbered | ⟨_, next⟩
    · rw [current] at numbered
      cases numbered
    · exact .inl ⟨.inl (congrArg some next.symm), trivial⟩
  · intro b
    rw [current]
    exact fun waiting => waiting

/-- A write is admitted.  Older writes that were due at the block will be
refused, and its own positions wait for the store. -/
theorem Net.Cached.admitWrite (history : net.History mount base log) {turns : List (Turn Hash)}
    (current : call.phase = .applying reply (turn :: turns))
    (admitted : admits net.session.last turn.b reply.seq true = true) (free : net.Free turn.b) :
    (net.move id call { net.session with last := admitSeq net.session.last turn.b reply.seq true
        } (.admitted reply turn turns)).Cached mount view base log := by
  obtain ⟨replied, _⟩ := history.facts here current
  obtain ⟨place, exactly, placed⟩ := replied.place
  obtain ⟨entry, newer⟩ := admitSeq_write replied.positive admitted
  have number : ∀ count, call.Number net.session.seq count → count = reply.seq :=
    fun count counted => counted.eq_seq (by rw [current]; rfl)
  refine cached.of_bucket rfl ?_
  intro b index value inChunk marked same accounted
  by_cases elsewhere : b = turn.b
  · subst elsewhere
    cases accounted with
    | right same => exact .right same
    | later unquiet =>
      by_cases quiet : fileWrites.Quiet log reply.seq (turn.b * mount.chunk.bytes + index)
      · -- the position's last writer lies between the two entries
        simp only [WriteModel.Quiet, not_forall, not_not] at unquiet
        obtain ⟨early, write, after, found, covers⟩ := unquiet
        obtain ⟨count, beyond, writer⟩ := WriteModel.exists_lastWriter found covers
        obtain ⟨index', write', counted, found', covers'⟩ := writer.covers
        have bounded : count ≤ reply.seq := by
          by_contra larger
          exact quiet index' write' (by omega) found' covers'
        cases subBlock : mount.features.subBlockHash with
        | false =>
          apply Accounted.pending
          exact ⟨id, _, update_self _ _ _, rfl, .inl subBlock⟩
        | true =>
          rcases Nat.lt_or_eq_of_le bounded with older | own
          · apply Accounted.refused count subBlock _ writer
            · have hit := misses_of_covers inChunk covers'
              have has := history.due index' write' turn.b found' hit (by omega)
              rw [counted] at has
              apply has.setWrite here
              · rintro other call' _ _ ⟨counted, due⟩
                exact ⟨counted, due.unverified index⟩
              · rintro ⟨counted, _⟩
                exact absurd (number count counted) (by omega)
            · simp only [Net.setWrite, entry]
              exact older
          · apply Accounted.pending
            refine ⟨id, _, update_self _ _ _, rfl, .inr ?_⟩
            have sameIndex : index' = place := by omega
            rw [sameIndex, placed, some.injEq] at found'
            exact found' ▸ covers'
      · apply Accounted.later
        simp only [Net.setWrite, entry]
        exact quiet
    | refused count subBlock behind writer has =>
      apply Accounted.refused count subBlock _ writer
      · apply has.setWrite here
        · exact fun _ _ _ _ holds => holds
        · rintro ⟨counted, _⟩
          exact ⟨.inl (congrArg some (number count counted).symm), trivial⟩
      · simp only [Net.setWrite, entry]
        omega
    | pending has =>
      obtain ⟨other, found, there, waiting, _⟩ := has
      exact absurd waiting (free.writes other found there)
    | filling fetch fetched filling =>
      exact absurd filling (free.fetches _ fetch fetched rfl)
  · refine accounted.setWrite here rfl
      (by simp only [admitSeq_of_ne elsewhere]) (fun _ _ _ _ _ => rfl) ?_ ?_
    · intro count _ _ _ counted _
      exact .inl ⟨.inl (congrArg some (number count counted).symm), trivial⟩
    · intro waiting
      rw [current] at waiting
      exact waiting.elim

/-- The loop is over; every position the write covers lies in one of its
units. -/
theorem Net.Cached.verify (history : net.History mount base log)
    (inline : mount.features.deferHash = false) (current : call.phase = .applying reply []) :
    (net.move id call net.session (.verifying reply (mount.checks reply))).Cached mount view
        base log := by
  obtain ⟨replied, _⟩ := history.facts here current
  obtain ⟨place, exactly, placed⟩ := replied.place
  refine cached.setWrite here rfl rfl rfl (fun _ _ _ _ _ => rfl) ?_ ?_
  · intro b index count inChunk _ subBlock _ writer counted _
    have own : count = reply.seq := counted.eq_seq (by rw [current]; rfl)
    refine .inl ⟨.inl (congrArg some own.symm), ?_⟩
    obtain ⟨index', write, isLast, found, covers⟩ := writer.covers
    have sameIndex : index' = place := by omega
    rw [sameIndex, placed, some.injEq] at found
    rw [← found] at covers
    have checked : mount.checks reply = reply.units := by
      simp [checks, inline, subBlock]
    have listed := replied.unit subBlock inChunk covers
    rw [← checked] at listed
    exact listed
  · intro b
    rw [current]
    exact fun waiting => waiting

theorem Net.Cached.mismatches (current : call.phase = .verifying reply (unit :: units)) :
    (net.move id call net.session (.dropping reply unit.blockIdx units)).Cached mount view base
        log := by
  refine cached.setWrite here rfl rfl rfl (fun _ _ _ _ _ => rfl) ?_ ?_
  · intro b index count _ _ _ _ _ counted unverified
    have own : count = reply.seq := counted.eq_seq (by rw [current]; rfl)
    rw [current] at unverified
    refine .inl ⟨.inl (congrArg some own.symm), ?_⟩
    obtain ⟨candidate, mem, same, above, below⟩ := unverified
    rcases mem_cons.mp mem with rfl | later
    · exact .inl same
    · exact .inr ⟨candidate, later, same, above, below⟩
  · intro b
    rw [current]
    exact fun waiting => waiting

variable (lawful : mount.Lawful view)
include lawful

theorem Net.Cached.matches (history : net.History mount base log)
    (inline : mount.features.deferHash = false)
    (current : call.phase = .verifying reply (unit :: units))
    (hashed : view.bytes net.session.bucket unit.blockIdx unit.subOff unit.subLen ∈ mount.hashed)
    (found : mount.store.hashRange net.session.bucket unit.blockIdx
      unit.subOff unit.subLen = some unit.hash) :
    (net.move id call net.session (.verifying reply units)).Cached mount view base log := by
  obtain ⟨replied, remaining⟩ := history.facts here current
  refine cached.setWrite here rfl rfl rfl (fun _ _ _ _ _ => rfl) ?_ ?_
  · intro b index count inChunk _ subBlock _ writer counted unverified
    have own : count = reply.seq := counted.eq_seq (by rw [current]; rfl)
    subst own
    rw [current] at unverified
    obtain ⟨candidate, mem, same, above, below⟩ := unverified
    rcases mem_cons.mp mem with rfl | later
    · right
      have listed : candidate ∈ reply.units := by
        simpa [checks, inline, subBlock] using remaining candidate mem_cons_self
      obtain ⟨fits, bytes, taken, digest, length, final⟩ := replied.digest subBlock listed
      obtain ⟨cachedDigest, _⟩ := lawful.hashRange_spec cached.sound fits found
      have equal := mount.tells taken hashed (digest.symm.trans cachedDigest)
      rw [← same] at writer ⊢
      rw [history.file, ← final index above below writer, equal]
      have position : candidate.subOff + (index - candidate.subOff) = index := by omega
      simp only [View.bytes]
      rw [if_pos (by omega), position]
    · exact .inl ⟨.inl rfl, candidate, later, same, above, below⟩
  · intro b
    rw [current]
    exact fun waiting => waiting

/-- The store does not hold the unit.  That settles its positions when nothing
of the block is cached, or no newer write was admitted to it. -/
theorem Net.Cached.unheld (current : call.phase = .verifying reply (unit :: units))
    (settled : view.Vacant net.session.bucket unit.blockIdx ∨
      (net.session.last unit.blockIdx).getD 0 ≤ reply.seq) :
    (net.move id call net.session (.verifying reply units)).Cached mount view base log := by
  refine cached.setWrite here rfl rfl rfl (fun _ _ _ _ _ => rfl) ?_ ?_
  · intro b index count inChunk marked _ behind _ counted unverified
    have own : count = reply.seq := counted.eq_seq (by rw [current]; rfl)
    rw [current] at unverified
    refine .inl ⟨.inl (congrArg some own.symm), ?_⟩
    obtain ⟨candidate, mem, same, above, below⟩ := unverified
    rcases mem_cons.mp mem with rfl | later
    · rw [same] at settled
      rcases settled with vacant | upToDate
      · exact absurd marked (lawful.vacant_marked cached.sound vacant inChunk)
      · omega
    · exact ⟨candidate, later, same, above, below⟩
  · intro b
    rw [current]
    exact fun waiting => waiting

theorem Net.Cached.drop (current : call.phase = .dropping reply dropped units) :
    (net.move id call { net.session with bucket := mount.store.drop net.session.bucket dropped }
        (.verifying reply units)).Cached mount view base log := by
  have drops : view.Drops mount.chunk net.session.bucket
      (mount.store.drop net.session.bucket dropped) dropped 0 0 :=
    lawful.drop_spec cached.sound
  refine cached.of_frame drops.toFrame (.inr drops.becomesVacant) ?_ ?_ ?_
  · intro index inChunk unwritten past
    rcases drops.outside index (by omega) inChunk with zero | same
    · exact zero
    · exact same.trans (cached.clean dropped index inChunk unwritten past)
  · intro index inChunk marked
    exact absurd marked (lawful.vacant_marked drops.sound drops.becomesVacant inChunk)
  · intro other index value ne accounted
    refine accounted.setWrite here rfl rfl (fun _ _ _ _ _ => rfl) ?_ ?_
    · intro count _ _ _ counted unverified
      have own : count = reply.seq := counted.eq_seq (by rw [current]; rfl)
      rw [current] at unverified
      refine .inl ⟨.inl (congrArg some own.symm), ?_⟩
      rcases unverified with same | listed
      · exact absurd same.symm ne
      · exact listed
    · intro waiting
      rw [current] at waiting
      exact waiting.elim

theorem Net.Cached.hint (current : call.phase = .verifying reply []) : (net.move id call
      { net.session with bucket := mount.store.setHint net.session.bucket reply.size reply.mtimeNs }
      .returned).Cached mount view base log where
  sound := lawful.setHint_sound cached.sound
  uniform := cached.uniform.setHint lawful reply.size reply.mtimeNs
  clean := by
    intro b index inChunk unwritten past
    exact lawful.setHint_byte.trans (cached.clean b index inChunk unwritten past)
  accounted := by
    intro b index inChunk marked
    have before := cached.accounted b index inChunk (lawful.setHint_marked.mp marked)
    simp only [Net.setWrite, lawful.setHint_byte]
    refine before.setWrite here rfl rfl (fun _ _ _ _ _ => rfl) ?_ ?_
    · intro count _ _ _ _ unverified
      rw [current] at unverified
      obtain ⟨candidate, mem, _⟩ := unverified
      cases mem
    · intro waiting
      rw [current] at waiting
      exact waiting.elim

end

/-! ### The store operation -/

section Stored

variable {turn : Turn Hash} {turns : List (Turn Hash)}

section

variable {bucket : Option Entry} {off : Nat} {data : Bytes}
  (isPart : blockPart mount.chunk data off reply.n reply.size turn.b = part)
include isPart

theorem storeTurn_through (subBlock : mount.features.subBlockHash = true)
    (mem : turn ∈ mount.turns off reply) : mount.storeTurn bucket off data reply turn =
      mount.store.writeThrough bucket turn.b part.chunkOff part.data part.chunkLen := by
  subst isPart
  rw [turns, subBlock, Bool.or_true, if_pos rfl] at mem
  obtain ⟨b, _, rfl⟩ := mem_map.mp mem
  rfl

theorem storeTurn_full (lawful : mount.Lawful view) (sound : view.Sound bucket) (full : part.Full)
    (fits : part.data.len ≤ mount.chunk.bytes) :
    view.Overwrites mount.chunk bucket (mount.storeTurn bucket off data reply turn) turn.b
      part.data := by
  subst isPart
  unfold storeTurn
  simp only [full.1, ← full.2]
  cases turn.hash with
  | none => exact lawful.writeThrough_full sound fits
  | some hash => exact lawful.writeChunk_full sound fits

end

theorem storeTurn_splices (lawful : mount.Lawful view)
    {bucket : Option Entry} {off : Nat} {data : Bytes} (sound : view.Sound bucket)
    (shape : PartShape mount.chunk off data size b part)
    (partly : ¬part.Full) (whole : view.Whole bucket b) :
    view.SplicesIn mount.chunk bucket (mount.store.writeThrough bucket b part.chunkOff part.data
        part.chunkLen) b part.chunkOff part.data := by
  have valid := shape.valid
  have fits := shape.fits
  have nonempty := shape.nonempty
  apply lawful.writeThrough_partial sound (by omega) (by omega) partly
  by_contra unspliced
  exact lawful.unspliced_unmarked sound (by omega) unspliced
    (touched_of_inside (Nat.le_refl part.chunkOff) (by omega)) (lawful.whole_marked whole)

/-- What the step after an admitted turn changes and keeps. -/
structure StoreStep (mount : TellingMount Hash Entry) (base : Bytes)
    (log : List (Nat × Bytes)) (net next : Net Hash Entry)
    (call : WriteCall Hash) (reply : WriteReply Hash) (turn : Turn Hash) : Prop where
  bucket : next.session.bucket = mount.storeTurn net.session.bucket call.off call.data reply turn
  last : next.session.last = net.session.last
  history : next.History mount base log
  replied : ReplyFacts mount base log net.session.seq call.off call.data reply
  member : turn ∈ mount.turns call.off reply
  hit : misses mount.chunk call.off reply.n turn.b = false
  entry : (net.session.last turn.b).getD 0 = reply.seq
  elsewhere : ∀ other index value, other ≠ turn.b → Accounted mount log net other index value →
    Accounted mount log next other index value
  uncovered : ∀ index value, mount.features.subBlockHash = true →
    ¬fileWrites.Covers (call.off, call.data) (turn.b * mount.chunk.bytes + index) →
    Accounted mount log net turn.b index value → Accounted mount log next turn.b index value

namespace StoreStep

variable {next : Net Hash Entry}

section

variable (step : StoreStep mount base log net next call reply turn)
  (isPart : blockPart mount.chunk call.data call.off reply.n reply.size turn.b = part)
include step

theorem unwritten_uncovered (unwritten : fileWrites.Quiet log 0 pos) :
    ¬fileWrites.Covers (call.off, call.data) pos := by
  obtain ⟨place, _, placed⟩ := step.replied.place
  exact unwritten place _ (Nat.zero_le _) placed

include isPart

theorem part_get (inChunk : index < mount.chunk.bytes)
    (covers : fileWrites.Covers (call.off, call.data) (turn.b * mount.chunk.bytes + index)) :
    part.data.get (index - part.chunkOff) =
      (fileWrites.version base log reply.seq).get (turn.b * mount.chunk.bytes + index) := by
  subst isPart
  have shape := step.replied.shape step.hit
  obtain ⟨place, exactly, placed⟩ := step.replied.place
  have inside := (shape.covers index inChunk).mpr covers
  rw [shape.bytes index inside.1 inside.2, ← exactly]
  exact (version_get_of_covers placed covers).symm

variable (before : net.Cached mount view base log) (lawful : mount.Lawful view)
include before lawful

theorem full (covered : part.Full) : next.Cached mount view base log := by
  subst isPart
  have shape := step.replied.shape step.hit
  have valid := shape.valid
  have fits := shape.fits
  have start := covered.1
  have length := covered.2
  obtain ⟨count, newer, within, size, _⟩ := step.replied.version
  have behind : (next.session.last turn.b).getD 0 ≤ reply.seq := by
    rw [step.last]
    exact Nat.le_of_eq step.entry
  have overwrites : view.Overwrites mount.chunk net.session.bucket next.session.bucket turn.b _ :=
    step.bucket ▸ storeTurn_full rfl lawful before.sound covered (by omega)
  refine before.overwrite step.history overwrites ?_ ?_ step.elsewhere
  · refine ⟨reply.seq, behind, Nat.le_trans newer within, ?_⟩
    intro index below
    have inChunk : index < mount.chunk.bytes := by omega
    have content := step.part_get rfl inChunk ((shape.covers index inChunk).mp ⟨by omega, by omega⟩)
    rwa [start, Nat.sub_zero] at content
  · intro short
    exact ⟨count, Nat.le_trans behind newer, within, by omega⟩

theorem through (subBlock : mount.features.subBlockHash = true) (partly : ¬part.Full)
    (whole : view.Whole net.session.bucket turn.b) : next.Cached mount view base log := by
  subst isPart
  have shape := step.replied.shape step.hit
  obtain ⟨count, newer, within, _⟩ := step.replied.version
  have splices := storeTurn_splices lawful before.sound shape partly whole
  rw [← storeTurn_through rfl subBlock step.member, ← step.bucket] at splices
  refine before.of_frame splices.toFrame (.inl (splices.staysWhole whole)) ?_ ?_ step.elsewhere
  · intro index inChunk unwritten past
    have outside := mt (shape.covers index inChunk).mp (step.unwritten_uncovered unwritten)
    rw [splices.outside index outside inChunk]
    exact before.clean turn.b index inChunk unwritten past
  · intro index inChunk _
    by_cases covers : fileWrites.Covers (call.off, call.data) (turn.b * mount.chunk.bytes + index)
    · have inside := (shape.covers index inChunk).mpr covers
      have newest : (next.session.last turn.b).getD 0 ≤ reply.seq := by
        rw [step.last]
        exact Nat.le_of_eq step.entry
      apply step.history.accounted_of_version newest (Nat.le_trans newer within)
      rw [splices.inside index inside.1 inside.2]
      exact step.part_get rfl inChunk covers
    · have outside := mt (shape.covers index inChunk).mp covers
      rw [splices.outside index outside inChunk]
      exact step.uncovered index _ subBlock covers
        (before.accounted turn.b index inChunk (lawful.whole_marked whole))

/-- The classic read-modify-write: the block becomes the reply's version of it,
or is dropped. -/
theorem classic (inline : mount.features.deferHash = false)
    (classic : mount.features.subBlockHash = false) (partly : ¬part.Full)
    (whole : view.Whole net.session.bucket turn.b) (ready : view.Ready net.session.bucket turn.b
      (part.chunkOff + part.data.len) part.chunkLen)
    (merged : (view.bytes net.session.bucket turn.b 0 part.chunkLen).splice part.chunkOff
      part.data ∈ mount.hashed) : next.Cached mount view base log := by
  have shape := step.replied.shape step.hit
  rw [isPart] at shape
  have valid := shape.valid
  have fits := shape.fits
  obtain ⟨count, hash, carried, newer, within, size, digest, taken⟩ :=
    step.replied.classic classic inline step.member (isPart ▸ partly)
  rw [isPart] at digest taken
  have bucket := step.bucket
  simp only [storeTurn, carried, isPart] at bucket
  have newest : (next.session.last turn.b).getD 0 ≤ count := by
    rw [step.last, step.entry]
    exact newer
  by_cases same : mount.hashChunk ((view.bytes net.session.bucket turn.b 0 part.chunkLen).splice
      part.chunkOff part.data) = hash
  · have overwrites := lawful.writeChunk_match before.sound fits (by omega) partly whole ready same
    rw [← bucket, mount.tells merged taken (same.trans digest)] at overwrites
    refine before.overwrite step.history overwrites ?_ ?_ step.elsewhere
    · refine ⟨count, newest, within, ?_⟩
      intro index below
      exact Padded.slice_get_of_lt _ below
    · intro short
      rw [Padded.slice_len] at short ⊢
      exact ⟨count, newest, within, by omega⟩
  · have drops := lawful.writeChunk_mismatch before.sound fits (by omega) partly whole ready same
    rw [← bucket] at drops
    refine before.of_frame drops.toFrame (.inr drops.becomesVacant) ?_ ?_ step.elsewhere
    · intro index inChunk unwritten past
      have outside := mt (shape.covers index inChunk).mp (step.unwritten_uncovered unwritten)
      rcases drops.outside index outside inChunk with zero | kept
      · exact zero
      · exact kept.trans (before.clean turn.b index inChunk unwritten past)
    · intro index inChunk marked
      exact absurd marked (lawful.vacant_marked drops.sound drops.becomesVacant inChunk)

theorem vacant (partly : ¬part.Full)
    (empty : view.Vacant net.session.bucket turn.b) : next.Cached mount view base log := by
  subst isPart
  have shape := step.replied.shape step.hit
  have valid := shape.valid
  have fits := shape.fits
  have nonempty := shape.nonempty
  have unchanged : next.session.bucket = net.session.bucket := by
    rw [step.bucket, storeTurn]
    cases turn.hash with
    | none =>
      exact lawful.writeThrough_skip partly
        (lawful.vacant_unspliced before.sound (by omega) (by omega) empty)
    | some hash => exact lawful.writeChunk_vacant partly empty
  refine before.of_frame ?_ ?_ ?_ ?_ step.elsewhere
  · rw [unchanged]
    exact View.Frame.refl before.sound turn.b
  · exact .inr (unchanged ▸ empty)
  · exact unchanged ▸ before.clean turn.b
  · intro index inChunk marked
    rw [unchanged] at marked
    exact absurd marked (lawful.vacant_marked before.sound empty inChunk)

theorem cached (inline : mount.features.deferHash = false)
    (ready : turn.hash.isSome → view.Whole net.session.bucket turn.b → ¬part.Full →
      view.Ready net.session.bucket turn.b (part.chunkOff + part.data.len) part.chunkLen ∧
      (view.bytes net.session.bucket turn.b 0 part.chunkLen).splice part.chunkOff part.data ∈
        mount.hashed) :
    next.Cached mount view base log := by
  by_cases covered : part.Full
  · exact step.full isPart before lawful covered
  rcases before.uniform turn.b with whole | empty
  · cases scheme : mount.features.subBlockHash with
    | true => exact step.through isPart before lawful scheme covered whole
    | false =>
      subst isPart
      obtain ⟨_, hash, carried, _⟩ := step.replied.classic scheme inline step.member covered
      obtain ⟨readable, merged⟩ := ready (carried ▸ rfl) whole covered
      exact step.classic rfl before lawful inline scheme covered whole readable merged
  · exact step.vacant isPart before lawful covered empty

end

end StoreStep

theorem Net.Cached.applied (cached : net.Cached mount view base log) (lawful : mount.Lawful view)
    (history : net.History mount base log)
    (inline : mount.features.deferHash = false) (here : net.writes id = some call)
    (current : call.phase = .admitted reply turn turns)
    (isPart : blockPart mount.chunk call.data call.off reply.n reply.size turn.b = part)
    (ready : turn.hash.isSome → view.Whole net.session.bucket turn.b → ¬part.Full →
      view.Ready net.session.bucket turn.b (part.chunkOff + part.data.len) part.chunkLen ∧
      (view.bytes net.session.bucket turn.b 0 part.chunkLen).splice part.chunkOff part.data ∈
        mount.hashed)
    {next : Net Hash Entry} (moved : next = net.move id call { net.session with
        bucket := mount.storeTurn net.session.bucket call.off call.data reply turn }
      (.applying reply turns)) (after : next.History mount base log) :
    next.Cached mount view base log := by
  subst moved
  obtain ⟨replied, members, hit, entry⟩ := history.facts here current
  have numbered : ∀ count, call.Number net.session.seq count → count = reply.seq :=
    fun count counted => counted.eq_seq (by rw [current]; rfl)
  refine StoreStep.cached ?_ isPart cached lawful inline ready
  exact
    { bucket := rfl
      last := rfl
      history := after
      replied
      member := members turn mem_cons_self
      hit
      entry
      elsewhere := by
        intro other index value ne accounted
        refine accounted.setWrite here rfl rfl (fun _ _ _ _ _ => rfl) ?_ ?_
        · intro count _ _ _ counted _
          exact .inl ⟨.inl (congrArg some (numbered count counted).symm), trivial⟩
        · intro waiting
          rw [current] at waiting
          exact absurd waiting.symm ne
      uncovered := by
        intro index value subBlock outside accounted
        refine accounted.setWrite here rfl rfl (fun _ _ _ _ _ => rfl) ?_ ?_
        · intro count _ _ _ counted _
          exact .inl ⟨.inl (congrArg some (numbered count counted).symm), trivial⟩
        · rintro _ (classic | covers)
          · rw [subBlock] at classic
            cases classic
          · exact outside covers }

end Stored

end Cornus.Wire
