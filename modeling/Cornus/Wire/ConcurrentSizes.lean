import Cornus.BlockCache.MemStore
import Cornus.Wire.ConcurrentHistory

/-!
# The size registry under concurrent writes

Every write reply carries the size of the file at its stat, and the proxy
registers it.  The file only grows, so the registry ends at the file's size when
no reply is registered after a reply with a larger size.
-/

namespace Cornus.Wire

open Padded Nat Mount

open Function

open BlockCache Lib Option

/-! ## Reads below the end -/

section Lengths

variable {Hash Entry : Type} {mount : Mount Hash Entry}

theorem subBlockBytes_length (session : Session Entry) (b : Nat)
    {subOff subLen : Nat} (nonempty : 0 < subLen) (fits : subLen ≤ mount.chunk.bytes)
    (inFile : b * mount.chunk.bytes + subOff + subLen ≤ session.file.len) :
    (mount.subBlockBytes session b subOff subLen).1.file = session.file ∧
      ∃ data, (mount.subBlockBytes session b subOff subLen).2 = some data ∧ data.len = subLen := by
  have allowed : ¬(subLen = 0 ∨ mount.chunk.bytes < subLen) := by omega
  have length : (fileReadAt session.file (b * mount.chunk.bytes + subOff) subLen).len = subLen := by
    rw [fileReadAt_len]
    omega
  have missed : (mount.fetchSub session b subOff subLen).1.file =
      session.file ∧ (mount.fetchSub session b subOff subLen).2 =
        some (fileReadAt session.file (b * mount.chunk.bytes + subOff) subLen) := by
    simp only [fetchSub, handleReadRange, if_neg allowed]
    split_ifs
    · exact ⟨rfl, rfl⟩
    · exact ⟨rfl, rfl⟩
  have refilled : ∃ data, (mount.fetchSub session b subOff subLen).2.map
      (fun data => data.resize (min subLen data.len)) = some data ∧ data.len = subLen := by
    rw [missed.2]
    refine ⟨_, rfl, ?_⟩
    rw [resize_len, length, Nat.min_self]
  simp only [subBlockBytes]
  split
  · split_ifs with full
    · exact ⟨rfl, _, rfl, full⟩
    · exact ⟨missed.1, refilled⟩
  · exact ⟨missed.1, refilled⟩

variable [Inhabited Hash]

theorem blockBytes_length (session : Session Entry) (b : Nat) :
    let chunkLen := min mount.chunk.bytes (session.file.len - b * mount.chunk.bytes)
    (mount.blockBytes session b chunkLen).1.file = session.file ∧
      (mount.blockBytes session b chunkLen).2.len = chunkLen := by
  intro chunkLen
  have spec := @readBlockFromCaller_spec _ _ mount _ session b
  have missed : (mount.fetchBlock session b).1.file = session.file ∧
      (mount.fetchBlock session b).2.len = chunkLen := by
    unfold fetchBlock
    generalize mount.readBlockFromCaller session b = reply at spec ⊢
    obtain ⟨data, hash, seq⟩ := reply
    simp only
    split_ifs
    · exact ⟨rfl, spec.1⟩
    · exact ⟨rfl, spec.1⟩
  unfold blockBytes
  split
  · split_ifs with full
    · exact ⟨rfl, full⟩
    · exact missed
  · exact missed

theorem bytesAt_length (session : Session Entry) {stop pos : Nat}
    (ahead : pos < stop) (inFile : stop ≤ session.file.len) :
    (mount.bytesAt session session.file.len stop pos).1.file = session.file ∧
      ∃ base data, (mount.bytesAt session session.file.len stop pos).2 =
        some (base, data) ∧ base ≤ pos ∧ pos - base < data.len := by
  have positive := mount.chunk.positive
  have start : pos / mount.chunk.bytes * mount.chunk.bytes ≤ pos := div_mul_le_self _ _
  unfold bytesAt
  split_ifs
  · obtain ⟨first, subLen, range, before, after, fits, inside, _⟩ :=
      touchedRange_spec mount.chunk ahead inFile
    obtain ⟨kept, data, found, length⟩ := @subBlockBytes_length _ _ mount
      session (pos / mount.chunk.bytes) (first * subBlockSize) subLen
      (by omega) (by omega) (by omega)
    simp only [range, found, map_some]
    exact ⟨kept, _, _, rfl, before, by omega⟩
  · have valid : blockValidEnd mount.chunk (pos / mount.chunk.bytes)
        session.file.len - pos / mount.chunk.bytes * mount.chunk.bytes =
        min mount.chunk.bytes (session.file.len - pos / mount.chunk.bytes * mount.chunk.bytes) := by
      simp only [blockValidEnd]
      omega
    obtain ⟨kept, length⟩ := @blockBytes_length _ _ mount _ session (pos / mount.chunk.bytes)
    simp only [valid]
    refine ⟨kept, _, _, rfl, start, ?_⟩
    rw [length]
    have inBlock : pos < pos / mount.chunk.bytes * mount.chunk.bytes + mount.chunk.bytes := by
      rw [← succ_mul]
      exact lt_mul_of_div_lt (lt_succ_self _) positive
    omega

theorem readLoop_length (fuel : Nat) (session : Session Entry)
    {stop pos : Nat} (out : Bytes) (reached : pos ≤ stop)
    (inFile : stop ≤ session.file.len) (enough : stop - pos ≤ fuel) :
    let result := mount.readLoop session.file.len stop fuel session pos out
    result.2.1.len = out.len + (stop - pos) ∧ result.2.2 = false := by
  induction fuel generalizing session pos out with
  | zero =>
    simp only [readLoop]
    exact ⟨by omega, trivial⟩
  | succ fuel ih =>
    simp only [readLoop]
    by_cases ahead : pos < stop
    · obtain ⟨kept, base, data, found, before, some_byte⟩ :=
        @bytesAt_length _ _ mount _ session _ _ ahead inFile
      rw [if_pos ahead]
      generalize mount.bytesAt session session.file.len stop pos = turn at kept found ⊢
      obtain ⟨next, bytes⟩ := turn
      simp only at kept found
      subst found
      simp only [if_neg (Nat.not_le.mpr some_byte)]
      rw [if_neg (by omega), ← kept]
      obtain ⟨length, succeeded⟩ := @ih next (pos + min (stop - pos) (data.len - (pos - base)))
        (out.splice out.len (data.slice (pos - base) (min (stop - pos) (data.len - (pos - base)))))
        (by omega) (by rw [kept]; exact inFile) (by omega)
      refine ⟨?_, succeeded⟩
      rw [length]
      simp only [splice_len, slice_len]
      omega
    · rw [if_neg ahead]
      exact ⟨by simp only; omega, rfl⟩

/-- With the right size registered, a read below it is answered with all the
bytes there are, and with `io.EOF` only when it asked for more. -/
theorem readAt_length {session : Session Entry}
    (registered : session.size = session.file.len) {off length : Nat}
    (inRange : off + length < 2 ^ 63) (below : off < session.file.len) :
    (mount.readAt session off length).2.data.len = min length (session.file.len - off) ∧
      ((mount.readAt session off length).2.err = some .eof → session.file.len < off + length) := by
  obtain ⟨total, succeeded⟩ := @readLoop_length _ _ mount _
    (min (off + length) session.file.len - off) session
    (min (off + length) session.file.len) off (blank 0) (by omega) (by omega) (Nat.le_refl _)
  rw [readAt, min_int64 inRange, registered, if_neg (Nat.not_le.mpr below)]
  clear inRange
  simp only [readUpTo, registered]
  generalize mount.readLoop session.file.len (min (off + length) session.file.len)
    (min (off + length) session.file.len - off) session off (blank 0) = result at total succeeded ⊢
  obtain ⟨next, out, failed⟩ := result
  simp only [blank_len, zero_add] at total succeeded
  subst succeeded
  simp only [Bool.false_eq_true, if_false]
  split_ifs with short
  · exact ⟨by simp only; omega, fun _ => by omega⟩
  refine ⟨by simp only; omega, ?_⟩
  intro ended
  cases ended

end Lengths

/-! ## The registry -/

section Registry

variable {Hash Entry : Type}

def WritePhase.unregistered : WritePhase Hash → Option (WriteReply Hash)
  | .replied reply => some reply
  | .delivered reply => some reply
  | _ => none

def WritePhase.Brings (size : Nat) : WritePhase Hash → Prop
  | .stored => True
  | .numbered _ => True
  | .replied reply => size ≤ reply.size
  | .delivered reply => size ≤ reply.size
  | _ => False

def WritePhase.Registered : WritePhase Hash → Prop
  | .applying _ _ => True
  | .admitted _ _ _ => True
  | .verifying _ _ => True
  | .dropping _ _ _ => True
  | .returned => True
  | _ => False

variable {phase : WritePhase Hash} {next : Net Hash Entry}

theorem WritePhase.Registered.unregistered (registered : phase.Registered) :
    phase.unregistered = none := by
  cases phase with
  | applying | admitted | verifying | dropping | returned => rfl
  | sent | stored | numbered | replied | delivered => cases registered

theorem WritePhase.Registered.not_brings (registered : phase.Registered) (size : Nat) :
    ¬phase.Brings size := by
  cases phase with
  | applying | admitted | verifying | dropping | returned => exact id
  | sent | stored | numbered | replied | delivered => cases registered

theorem stepWrite_registered [DecidableEq Hash] (mount : Mount Hash Entry)
    (session : Session Entry) (off : Nat) (data : Bytes) (mtimeNs : Nat)
    (registered : phase.Registered) : let result := mount.stepWrite session off data mtimeNs phase
    result.1.file = session.file ∧ result.1.size = session.size ∧ result.2.Registered := by
  cases phase with
  | applying reply turns =>
    cases turns with
    | nil => exact ⟨rfl, rfl, trivial⟩
    | cons turn turns =>
      simp only [stepWrite]
      split_ifs
      · exact ⟨rfl, rfl, trivial⟩
      · exact ⟨rfl, rfl, trivial⟩
      · exact ⟨rfl, rfl, trivial⟩
  | admitted reply turn turns | dropping reply b units | returned => exact ⟨rfl, rfl, trivial⟩
  | verifying reply units =>
    cases units with
    | nil => exact ⟨rfl, rfl, trivial⟩
    | cons unit units =>
      simp only [stepWrite]
      split
      · split_ifs
        · exact ⟨rfl, rfl, trivial⟩
        · exact ⟨rfl, rfl, trivial⟩
      · exact ⟨rfl, rfl, trivial⟩
  | sent | stored | numbered | replied | delivered => cases registered

variable (net : Net Hash Entry)

/-- Every size is that of a version of the file, and a size above the
registered one is on its way. -/
structure Net.Sized : Prop where
  registered : net.session.size ≤ net.session.file.len
  replies : ∀ id call reply, net.writes id = some call → call.phase.unregistered = some reply →
    reply.size ≤ net.session.file.len
  growth : net.session.file.len ≤ net.session.size ∨ ∃ id call, net.writes id = some call ∧
      call.phase.Brings net.session.file.len

def WritePhase.DeliversAtLeast (size : Nat) : WritePhase Hash → Prop
  | .delivered reply => size ≤ reply.size
  | _ => True

instance (size : Nat) : (phase : WritePhase Hash) → Decidable (phase.DeliversAtLeast size)
  | .delivered reply => inferInstanceAs (Decidable (size ≤ reply.size))
  | .sent | .stored | .numbered _ | .replied _ | .applying _ _
  | .admitted _ _ _ | .verifying _ _ | .dropping _ _ _ | .returned =>
    .isTrue trivial

/-- No reply is registered after one with a larger size. -/
def Net.RegistersInOrder : NetEvent → Prop
  | .write id _ => ∀ call ∈ net.writes id, call.phase.DeliversAtLeast net.session.size
  | _ => True

instance (net : Net Hash Entry) : (event : NetEvent) → Decidable (net.RegistersInOrder event)
  | .write id _ => inferInstanceAs (Decidable (∀ call ∈ net.writes id,
      call.phase.DeliversAtLeast net.session.size))
  | .issueWrite _ _ _ | .issueRead _ _ _ | .read _ | .prefetch _ _ _
  | .fetch _ => .isTrue trivial

/-- The event is in range and registers in order. -/
def Net.SizesInOrder (chunk : ChunkSize) (event : NetEvent) : Prop :=
  net.session.InRange chunk event.reach ∧ net.RegistersInOrder event

instance (chunk : ChunkSize) (event : NetEvent) : Decidable (net.SizesInOrder chunk event) :=
  inferInstanceAs (Decidable (_ ∧ _))

variable {net : Net Hash Entry} {id : Nat}

/-- A step of one write call keeps the sizes in order when it does not lose the
growth this call was to bring. -/
theorem Net.Sized.setWrite (sized : net.Sized) (here : net.writes id = some call)
    {session : Session Entry} (grows : net.session.file.len ≤ session.file.len)
    (registered : session.size ≤ session.file.len)
    (replies : ∀ reply, phase.unregistered = some reply → reply.size ≤ session.file.len)
    (growth : phase.Brings session.file.len ∨ session.file.len = net.session.file.len ∧
        net.session.size ≤ session.size ∧
        ∀ size, call.phase.Brings size → phase.Brings size ∨ size ≤ session.size) :
    (net.move id call session phase).Sized where
  registered
  replies := by
    intro other found reply there pending
    rcases Net.writes_setWrite there with ⟨_, rfl⟩ | ⟨_, before⟩
    · exact replies reply pending
    · exact Nat.le_trans (sized.replies other found reply before pending) grows
  growth := by
    rcases growth with brings | ⟨length, larger, kept⟩
    · exact .inr ⟨id, _, update_self _ _ _, brings⟩
    rcases sized.growth with enough | has
    · left
      exact Nat.le_trans (length ▸ enough) larger
    · rw [← length] at has
      refine Classical.or_iff_not_imp_left.mpr fun short => ?_
      apply Net.HasCall.setWrite has here
      · exact fun _ _ _ _ brings => brings
      · exact fun brings => (kept _ brings).resolve_right short

theorem Net.Sized.of_eq (sized : net.Sized) (file : next.session.file = net.session.file)
    (size : next.session.size = net.session.size) (writes : next.writes = net.writes) :
    next.Sized where
  registered := by
    rw [file, size]
    exact sized.registered
  replies := by
    rw [file, writes]
    exact sized.replies
  growth := by
    rw [file, size, writes]
    exact sized.growth

variable [DecidableEq Hash] {mount : Mount Hash Entry}

theorem Net.Sized.stepWrite (sized : net.Sized) (here : net.writes id = some call) (mtimeNs : Nat)
    (ordered : ∀ reply, call.phase = .delivered reply → net.session.size ≤ reply.size) :
    (net.move id call (mount.stepWrite net.session call.off call.data mtimeNs call.phase).1
        (mount.stepWrite net.session call.off call.data mtimeNs call.phase).2).Sized := by
  have registered := sized.registered
  by_cases past : call.phase.Registered
  · obtain ⟨file, size, still⟩ := stepWrite_registered mount net.session
      call.off call.data mtimeNs past
    apply sized.setWrite here
    · exact Nat.le_of_eq (by rw [file])
    · rw [file, size]
      exact registered
    · intro reply pending
      rw [still.unregistered] at pending
      cases pending
    · rw [file, size]
      exact .inr ⟨rfl, Nat.le_refl _, fun size brings =>
        absurd brings (past.not_brings size)⟩
  cases current : call.phase with
  | sent =>
    have grows := fileWriteAt_grows net.session.file call.off call.data
    refine sized.setWrite here grows (Nat.le_trans registered grows) ?_ (.inl trivial)
    intro reply pending
    cases pending
  | stored =>
    refine sized.setWrite here (Nat.le_refl _) registered ?_
      (.inr ⟨rfl, Nat.le_refl _, fun _ _ => .inl trivial⟩)
    intro reply pending
    cases pending
  | numbered seq =>
    refine sized.setWrite here (Nat.le_refl _) registered ?_ (.inl (Nat.le_refl _))
    intro reply pending
    cases pending
    exact Nat.le_refl _
  | replied reply =>
    have bounded := sized.replies id call reply here (by rw [current]; rfl)
    refine sized.setWrite here (Nat.le_refl _) registered ?_
      (.inr ⟨rfl, Nat.le_refl _, fun size brings => ?_⟩)
    · intro other pending
      cases pending
      exact bounded
    · rw [current] at brings
      exact .inl brings
  | delivered reply =>
    have bounded := sized.replies id call reply here (by rw [current]; rfl)
    refine sized.setWrite here (Nat.le_refl _) bounded ?_
      (.inr ⟨rfl, ordered reply current, fun size brings => ?_⟩)
    · intro other pending
      cases pending
    · rw [current] at brings
      exact .inr brings
  | applying | admitted | verifying | dropping | returned =>
    rw [current] at past
    exact absurd trivial past

variable [Inhabited Hash]

/-- One event keeps the size right if replies register in order. -/
theorem netStep_sized (sized : net.Sized)
    (ordered : net.RegistersInOrder event) (taken : mount.netStep net event = some next) :
    next.Sized := by
  cases event with
  | issueWrite id off data =>
    simp only [netStep, ite_none_left_eq_some, some.injEq] at taken
    obtain ⟨vacant, rfl⟩ := taken
    have free : net.writes id = none := by simpa using vacant
    refine ⟨sized.registered, ?_, ?_⟩
    · intro other found reply there pending
      rcases Net.writes_setWrite there with ⟨_, rfl⟩ | ⟨_, before⟩
      · cases pending
      · exact sized.replies other found reply before pending
    · exact sized.growth.imp_right fun has => Net.HasCall.issue has free
  | issueRead id off length =>
    simp only [netStep, ite_none_left_eq_some, some.injEq] at taken
    obtain ⟨_, rfl⟩ := taken
    exact sized.of_eq rfl rfl rfl
  | write id mtimeNs =>
    simp only [netStep, map_eq_some_iff] at taken
    obtain ⟨call, here, rfl⟩ := taken
    apply sized.stepWrite here mtimeNs
    intro reply current
    have mine := ordered call here
    rw [current] at mine
    exact mine
  | read id =>
    simp only [netStep, bind_eq_some_iff] at taken
    obtain ⟨call, _, taken⟩ := taken
    obtain ⟨session, writes⟩ := stepRead_keeps taken
    exact sized.of_eq (by rw [session]) (by rw [session]) writes
  | prefetch size stop pos =>
    simp only [netStep] at taken
    split at taken
    · cases taken
      exact sized
    · rename_i key _ _
      cases taken
      obtain ⟨session, writes⟩ := joinFetch_keeps net key
      exact sized.of_eq (by rw [session]) (by rw [session]) writes
  | fetch key =>
    simp only [netStep, map_eq_some_iff] at taken
    obtain ⟨phase, _, rfl⟩ := taken
    obtain ⟨file, size⟩ := @stepFetch_session _ _ mount _ net.session key phase
    split
    · rename_i session next moved
      rw [moved] at file size
      exact sized.of_eq file size rfl
    · rename_i session outcome moved
      rw [moved] at file size
      exact sized.of_eq file size rfl

end Registry

/-! ## Runs -/

/-- Once every write has returned, the registry holds the file's size, and
allowed reads below it are answered. -/
def Mount.SizesSettle {Hash Entry : Type} [Inhabited Hash]
    [DecidableEq Hash] (mount : Mount Hash Entry)
    (allowed : Net Hash Entry → NetEvent → Prop) : Prop :=
  ∀ file mtimeNs events final,
    Along mount.netStep allowed (mount.opened file mtimeNs) events →
    run mount.netStep (mount.opened file mtimeNs) events = some final →
    (∀ id call, final.writes id = some call → call.phase = .returned) →
    final.session.size = final.session.file.len ∧
      ∀ id off length, off < final.session.file.len →
        allowed final (.issueRead id off length) →
        (mount.readAt final.session off length).2.data.len =
            min length (final.session.file.len - off) ∧
          ((mount.readAt final.session off length).2.err = some .eof →
            final.session.file.len < off + length)

/-- Runs that take sizes over in order settle on the file's size. -/
theorem sizesSettle_of_inOrder {Hash Entry : Type} [Inhabited Hash]
    [DecidableEq Hash] (mount : Mount Hash Entry) :
    mount.SizesSettle (Net.SizesInOrder · mount.chunk) := by
  intro file mtimeNs events final along reached returned
  have sized : final.Sized := by
    apply run_invariant _ _ along reached
    · intro net event next sized ordered taken
      exact netStep_sized sized ordered.2 taken
    · refine ⟨Nat.le_refl _, ?_, .inl (Nat.le_refl _)⟩
      intro id call reply here
      cases here
  have settled : final.session.size = final.session.file.len := by
    apply Nat.le_antisymm sized.registered
    rcases sized.growth with enough | ⟨id, call, here, brings⟩
    · exact enough
    · rw [returned id call here] at brings
      exact brings.elim
  refine ⟨settled, fun id off length below allowed => ?_⟩
  exact readAt_length settled allowed.1.reach_lt below

def plainMount : Mount Bytes (MemEntry Bytes) :=
  { store := memStore id onePage, hashChunk := id, chunk := onePage, features := classicFeatures }

/-- Two appends whose replies are registered against their order at the
caller. -/
def overtakenRun : List NetEvent :=
  [.issueWrite 1 0 (Padded.replicate 10 1), .issueWrite 2 10 (Padded.replicate 10 2)] ++
  List.replicate 3 (.write 1 0) ++ List.replicate 9 (.write 2 0) ++
  List.replicate 6 (.write 1 0)

theorem overtaken_not_sizesSettle : ¬plainMount.SizesSettle fun _ _ => True := by
  intro claim
  have observed : (run plainMount.netStep
      (plainMount.opened (blank 0) 0) overtakenRun).map (fun final =>
        (final.writesReturned [1, 2], final.session.size,
          final.session.file.len)) = some (true, 10, 20) := by decide +kernel
  obtain ⟨final, reached, seen⟩ := map_eq_some_iff.mp observed
  simp only [Prod.mk.injEq] at seen
  obtain ⟨returned, registered, length⟩ := seen
  have among : ∀ event ∈ overtakenRun, event.WritesAmong [1, 2] := by
    decide
  have quiescent := run_writesAmong among reached returned
  have settled := (claim _ 0 overtakenRun final
    (Along.of_events fun _ _ => trivial) reached quiescent.writes).1
  omega

def inOrderRun : List NetEvent :=
  [.issueWrite 1 0 (Padded.replicate 10 1), .issueWrite 2 10 (Padded.replicate 10 2)] ++
  List.replicate 3 (.write 1 0) ++ List.replicate 3 (.write 2 0) ++
  List.replicate 6 (.write 1 0) ++ List.replicate 6 (.write 2 0)

theorem inOrderRun_settles : ∃ final, run plainMount.netStep (plainMount.opened (Padded.blank 0) 0)
        inOrderRun = some final ∧ final.session.size = final.session.file.len ∧
      (plainMount.readAt final.session 15 10).2.data.len = 5 := by
  have observed : (run plainMount.netStep
      (plainMount.opened (blank 0) 0) inOrderRun).map (fun final =>
        (final.writesReturned [1, 2], final.session.file.len, final.session.seq)) =
      some (true, 20, 2) := by decide +kernel
  obtain ⟨final, reached, seen⟩ := map_eq_some_iff.mp observed
  simp only [Prod.mk.injEq] at seen
  obtain ⟨returned, length, seq⟩ := seen
  have among : ∀ event ∈ inOrderRun, event.WritesAmong [1, 2] := by
    decide
  have quiescent := run_writesAmong among reached returned
  have ordered : Along plainMount.netStep (Net.SizesInOrder · plainMount.chunk)
      (plainMount.opened (blank 0) 0) inOrderRun := by
    decide +kernel
  obtain ⟨settled, answers⟩ := sizesSettle_of_inOrder plainMount
    (blank 0) 0 inOrderRun final ordered reached quiescent.writes
  have inRange : final.session.InRange plainMount.chunk (15 + 10) := by
    rw [Session.InRange, length, seq]
    decide
  obtain ⟨answered, _⟩ := answers 0 15 10 (by omega) ⟨inRange, trivial⟩
  rw [length] at answered
  exact ⟨final, reached, settled, answered⟩

end Cornus.Wire
