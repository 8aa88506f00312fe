import Mathlib.Data.Set.Operations
import Cornus.Wire.Concurrent
import Cornus.Wire.WriteCoherence

/-!
# Sequence numbers and the order of writes

When writes are numbered in the order in which they reach the file, the number
of a write is its place in the log of the file's writes.  This module relates
every phase of a concurrent call to that log: which version of the file a reply
was computed from, which versions a fetched block may hold, and that a block
whose table entry is behind a write still has that write in progress.
-/

namespace Cornus.Wire

open Option Nat Net

open BlockCache Lib Function

/-! ## Phases -/

section Phases

variable {Hash : Type}

/-- The number of a write, from `bumpSeq` to its return. -/
def WritePhase.seqNo : WritePhase Hash → Option Nat
  | .numbered seq => some seq
  | .replied reply => some reply.seq
  | .delivered reply => some reply.seq
  | .applying reply _ => some reply.seq
  | .admitted reply _ _ => some reply.seq
  | .verifying reply _ => some reply.seq
  | .dropping reply _ _ => some reply.seq
  | .sent => none
  | .stored => none
  | .returned => none

/-- The write has reached the file and has yet to ask for admission to block
`b`. -/
def WritePhase.Due (b : Nat) : WritePhase Hash → Prop
  | .stored => True
  | .numbered _ => True
  | .replied _ => True
  | .delivered _ => True
  | .applying _ turns => ∃ turn ∈ turns, turn.b = b
  | .admitted _ _ turns => ∃ turn ∈ turns, turn.b = b
  | _ => False

/-- The write was admitted to block `b` and has yet to change the store. -/
def WritePhase.PendingAt (b : Nat) : WritePhase Hash → Prop
  | .admitted _ turn _ => turn.b = b
  | _ => False

def FetchPhase.Admitted : FetchPhase Hash → Prop
  | .admitted _ _ _ => True
  | _ => False

/-- The fetch has looked at the file and has no label yet. -/
def FetchPhase.Unlabelled : FetchPhase Hash → Prop
  | .serving stage => stage.Unlabelled
  | _ => False

/-- The write is number `count` in the order of the file's writes. -/
def WriteCall.Number (seq : Nat) (call : WriteCall Hash) (count : Nat) : Prop :=
  call.phase.seqNo = some count ∨ call.phase = .stored ∧ count = seq + 1

end Phases

variable {Hash Entry : Type}

/-! ## Calls of a network -/

def Net.HasCall (net : Net Hash Entry) (holds : WriteCall Hash → Prop) : Prop :=
  ∃ id call, net.writes id = some call ∧ holds call

variable {net : Net Hash Entry} {id : Nat} {session : Session Entry} {call : WriteCall Hash}

theorem Net.HasCall.setWrite {before after : WriteCall Hash → Prop} (has : net.HasCall before)
    (here : net.writes id = some call)
    (others : ∀ other found, other ≠ id → net.writes other = some found →
      before found → after found) (mine : before call → after new) :
    (setWrite { net with session } id new).HasCall after := by
  obtain ⟨other, found, there, holds⟩ := has
  by_cases same : other = id
  · subst same
    rw [here, some.injEq] at there
    subst there
    exact ⟨other, new, update_self _ _ _, mine holds⟩
  · exact ⟨other, found, (update_of_ne same _ _).trans there, others other found same there holds⟩

theorem Net.HasCall.issue (has : net.HasCall holds) (free : net.writes id = none) :
    (net.setWrite id new).HasCall holds := by
  obtain ⟨other, found, there, holds⟩ := has
  have ne : other ≠ id := by
    rintro rfl
    rw [free] at there
    cases there
  exact ⟨other, found, (update_of_ne ne _ _).trans there, holds⟩

def Net.AtMostOne (net : Net Hash Entry) (kind : WritePhase Hash → Prop) : Prop :=
  ∀ id call other found, net.writes id = some call →
    net.writes other = some found → kind call.phase → kind found.phase → id = other

theorem Net.AtMostOne.setWrite {phase : WritePhase Hash} (unique : net.AtMostOne kind)
    (here : net.writes id = some call)
    (enters : kind phase → kind call.phase ∨ ∀ other found, other ≠ id →
      net.writes other = some found → ¬kind found.phase) :
    (net.move id call session phase).AtMostOne kind := by
  have apart : ∀ other found, other ≠ id → net.writes other = some found →
      kind phase → ¬kind found.phase := by
    intro other found ne there mine theirs
    rcases enters mine with before | none
    · exact ne (unique other found id call there here theirs before)
    · exact none other found ne there theirs
  intro first call' second found there thereToo mine theirs
  rcases writes_setWrite there with ⟨rfl, rfl⟩ | ⟨isOther, before⟩
  · rcases writes_setWrite thereToo with ⟨rfl, rfl⟩ | ⟨isOther, before⟩
    · rfl
    · exact absurd theirs (apart second found isOther before mine)
  · rcases writes_setWrite thereToo with ⟨rfl, rfl⟩ | ⟨_, beforeToo⟩
    · exact absurd mine (apart first call' isOther before theirs)
    · exact unique first call' second found before beforeToo mine theirs

theorem Net.AtMostOne.issue (unique : net.AtMostOne kind) (other : ¬kind new.phase) :
    (net.setWrite id new).AtMostOne kind := by
  intro first call' second found there thereToo mine theirs
  rcases writes_setWrite there with ⟨rfl, rfl⟩ | ⟨_, before⟩
  · exact absurd mine other
  rcases writes_setWrite thereToo with ⟨rfl, rfl⟩ | ⟨_, beforeToo⟩
  · exact absurd theirs other
  · exact unique first call' second found before beforeToo mine theirs

/-- Nothing that was admitted to block `b` is still to reach the store. -/
structure Net.Free (net : Net Hash Entry) (b : Nat) : Prop where
  writes : ∀ id call, net.writes id = some call → ¬call.phase.PendingAt b
  fetches : ∀ key phase, net.fetches key = some phase → key.b = b → ¬phase.Admitted

/-! ## What a call knows of the log -/

section Facts

/-- The units of a write reply under a hash, before their count is cut to 16
bits. -/
def Mount.entriesOf {Digest : Type} (mount : Mount Hash Entry) (hash : Bytes → Digest)
    (file : Bytes) (off : Nat) (data : Bytes) : List (UnitHash Digest) :=
  if mount.features.subBlockHash then
    writeUnits hash mount.chunk mount.features file data off data.len file.len
  else
    classicEntries hash mount.chunk file data off data.len file.len

/-- The units of a write reply. -/
def Mount.entries (mount : Mount Hash Entry) : Bytes → Nat → Bytes → List (UnitHash Hash) :=
  mount.entriesOf mount.hashChunk

/-- The byte strings that the digests of a write reply are taken of. -/
def Mount.hashes (mount : Mount Hash Entry) (file : Bytes) (off : Nat) (data : Bytes) :
    Set Bytes :=
  { bytes | ∃ unit ∈ mount.entriesOf (fun bytes => bytes) file off data,
      unit.hash = bytes }

/-- A mount with a set of byte strings that its digest tells apart. -/
structure TellingMount (Hash Entry : Type) extends Mount Hash Entry where
  hashed : Set Bytes
  tells : Set.InjOn hashChunk hashed

variable (mount : TellingMount Hash Entry) (base : Bytes) (log : List (Nat × Bytes)) (seq : Nat)

/-- The reply was computed from some version that has the write. -/
structure ReplyFacts (off : Nat) (data : Bytes) (reply : WriteReply Hash) : Prop where
  length : reply.n = data.len
  numbered : reply.seq ≤ seq
  place : ∃ index, index + 1 = reply.seq ∧ log[index]? = some (off, data)
  version : ∃ count, reply.seq ≤ count ∧ count ≤ log.length ∧
    reply.size = (fileWrites.version base log count).len ∧
    reply.units = mount.entries (fileWrites.version base log count) off data ∧
    mount.hashes (fileWrites.version base log count) off data ⊆ mount.hashed

variable (last : Nat → Option Nat)

def CallFacts (off : Nat) (data : Bytes) : WritePhase Hash → Prop
  | .sent => True
  | .stored => log.length = seq + 1 ∧ log[seq]? = some (off, data)
  | .numbered count => count ≤ seq ∧ ∃ index, index + 1 = count ∧ log[index]? = some (off, data)
  | .replied reply => ReplyFacts mount base log seq off data reply
  | .delivered reply => ReplyFacts mount base log seq off data reply
  | .applying reply turns =>
    ReplyFacts mount base log seq off data reply ∧ ∀ turn ∈ turns, turn ∈ mount.turns off reply
  | .admitted reply turn turns =>
    ReplyFacts mount base log seq off data reply ∧
      (∀ other ∈ turn :: turns, other ∈ mount.turns off reply) ∧
      misses mount.chunk off reply.n turn.b = false ∧ (last turn.b).getD 0 = reply.seq
  | .verifying reply units =>
    ReplyFacts mount base log seq off data reply ∧ ∀ unit ∈ units, unit ∈ mount.checks reply
  | .dropping reply _ units =>
    ReplyFacts mount base log seq off data reply ∧ ∀ unit ∈ units, unit ∈ mount.checks reply
  | .returned => True

/-- A labelled block is at least as new as its label, and its end is that of the
file when the label was taken, or later. -/
structure FillFacts (b label : Nat) (data : Bytes) : Prop where
  labelled : label ≤ seq
  fits : data.len ≤ mount.chunk.bytes
  content : ∃ count, label ≤ count ∧ count ≤ log.length ∧
    ∀ index, index < data.len → data.get index =
      (fileWrites.version base log count).get (b * mount.chunk.bytes + index)
  complete : data.len < mount.chunk.bytes →
    (fileWrites.version base log label).len ≤ b * mount.chunk.bytes + data.len

/-- What holds of the fetch of block `b` in each phase. -/
def FetchFacts (b : Nat) : FetchPhase Hash → Prop
  | .serving .arrived => True
  | .serving (.statted size) =>
    (fileWrites.version base log seq).len ≤ size ∧
      size ≤ (fileWrites.version base log log.length).len
  | .serving (.looping size label current left sent) =>
    current = b ∧ left = 1 ∧ sent = [] ∧ label ≤ seq ∧
      (fileWrites.version base log label).len ≤ size ∧
      size ≤ (fileWrites.version base log log.length).len
  | .serving (.fetched _) => False
  | .serving (.replied reply) => ∃ frame, reply = .frames [frame] ∧
      FillFacts mount base log seq b frame.seq frame.data
  | .delivered reply => ∃ frame, reply = .frames [frame] ∧
      FillFacts mount base log seq b frame.seq frame.data
  | .admitted label _ data =>
    FillFacts mount base log seq b label data ∧ (last b).getD 0 = label

end Facts

section Mono

variable {mount : TellingMount Hash Entry} {base : Bytes} {log more : List (Nat × Bytes)}
  {seq later : Nat} {last next : Nat → Option Nat} {off : Nat} {data : Bytes}

theorem getElem?_append_of_some {index : Nat}
    (found : log[index]? = some write) : (log ++ more)[index]? = some write := by
  have inside := (List.getElem?_eq_some_iff.mp found).choose
  rw [List.getElem?_append_left inside]
  exact found

theorem ReplyFacts.mono {reply : WriteReply Hash} (grows : seq ≤ later)
    (facts : ReplyFacts mount base log seq off data reply) :
    ReplyFacts mount base (log ++ more) later off data reply where
  length := facts.length
  numbered := Nat.le_trans facts.numbered grows
  place := by
    obtain ⟨index, exactly, found⟩ := facts.place
    exact ⟨index, exactly, getElem?_append_of_some found⟩
  version := by
    obtain ⟨count, after, within, size, units, hashed⟩ := facts.version
    refine ⟨count, after, ?_, ?_, ?_, ?_⟩
    · rw [List.length_append]
      omega
    · rw [WriteModel.version_append within]
      exact size
    · rw [WriteModel.version_append within]
      exact units
    · rw [WriteModel.version_append within]
      exact hashed

variable {phase : WritePhase Hash}

/-- A call's facts survive the steps of others.  A write between file and number
sees neither change, and an admitted turn keeps its table entry. -/
theorem CallFacts.mono (grows : seq ≤ later) (stored : phase = .stored → more = [] ∧ later = seq)
    (admitted : ∀ b, phase.PendingAt b → (next b).getD 0 = (last b).getD 0)
    (facts : CallFacts mount base log seq last off data phase) :
    CallFacts mount base (log ++ more) later next off data phase := by
  cases phase with
  | sent | returned => trivial
  | stored =>
    obtain ⟨rfl, rfl⟩ := stored rfl
    rw [List.append_nil]
    exact facts
  | numbered count =>
    obtain ⟨bounded, index, exactly, found⟩ := facts
    exact ⟨Nat.le_trans bounded grows, index, exactly, getElem?_append_of_some found⟩
  | replied reply | delivered reply => exact ReplyFacts.mono grows facts
  | applying reply turns | verifying reply units | dropping reply b units =>
    exact ⟨facts.1.mono grows, facts.2⟩
  | admitted reply turn turns =>
    obtain ⟨replied, remaining, hit, entry⟩ := facts
    refine ⟨replied.mono grows, remaining, hit, ?_⟩
    rw [admitted turn.b rfl]
    exact entry

theorem CallFacts.of_last (admitted : ∀ b, phase.PendingAt b → (next b).getD 0 = (last b).getD 0)
    (facts : CallFacts mount base log seq last off data phase) :
    CallFacts mount base log seq next off data phase := by
  have kept : CallFacts mount base (log ++ []) seq next off data phase :=
    facts.mono (Nat.le_refl _) (fun _ => ⟨rfl, rfl⟩) admitted
  rwa [List.append_nil] at kept

theorem FillFacts.mono (grows : seq ≤ later)
    (within : seq ≤ log.length) (facts : FillFacts mount base log seq b label bytes) :
    FillFacts mount base (log ++ more) later b label bytes where
  labelled := Nat.le_trans facts.labelled grows
  fits := facts.fits
  content := by
    obtain ⟨count, after, bounded, content⟩ := facts.content
    refine ⟨count, after, ?_, ?_⟩
    · rw [List.length_append]
      omega
    · rw [WriteModel.version_append bounded]
      exact content
  complete := by
    rw [WriteModel.version_append (Nat.le_trans facts.labelled within)]
    exact facts.complete

theorem FetchFacts.mono {phase : FetchPhase Hash} (grows : seq ≤ later)
    (within : seq ≤ log.length) (unlabelled : phase.Unlabelled → later = seq)
    (admitted : phase.Admitted → (next b).getD 0 = (last b).getD 0)
    (facts : FetchFacts mount base log seq last b phase) :
    FetchFacts mount base (log ++ more) later next b phase := by
  have longer : (fileWrites.version base log log.length).len ≤
      (fileWrites.version base (log ++ more) (log ++ more).length).len := by
    rw [← WriteModel.version_append (Nat.le_refl log.length) more]
    apply fileWrites_version_len_le
    rw [List.length_append]
    exact le_add_right _ _
  cases phase with
  | serving stage =>
    cases stage with
    | arrived => trivial
    | statted size =>
      obtain rfl := unlabelled trivial
      refine ⟨?_, Nat.le_trans facts.2 longer⟩
      rw [WriteModel.version_append within]
      exact facts.1
    | looping size label current left sent =>
      obtain ⟨same, one, none, labelled, seen, bounded⟩ := facts
      refine ⟨same, one, none, Nat.le_trans labelled grows, ?_, Nat.le_trans bounded longer⟩
      rw [WriteModel.version_append (Nat.le_trans labelled within)]
      exact seen
    | fetched data => exact facts.elim
    | replied reply =>
      obtain ⟨frame, exactly, filled⟩ := facts
      exact ⟨frame, exactly, filled.mono grows within⟩
  | delivered reply =>
    obtain ⟨frame, exactly, filled⟩ := facts
    exact ⟨frame, exactly, filled.mono grows within⟩
  | admitted label hash data =>
    refine ⟨facts.1.mono grows within, ?_⟩
    rw [admitted trivial]
    exact facts.2

theorem FetchFacts.of_last {phase : FetchPhase Hash} (within : seq ≤ log.length)
    (admitted : phase.Admitted → (next b).getD 0 = (last b).getD 0)
    (facts : FetchFacts mount base log seq last b phase) :
    FetchFacts mount base log seq next b phase := by
  have kept : FetchFacts mount base (log ++ []) seq next b phase :=
    facts.mono (Nat.le_refl _) within (fun _ => rfl) admitted
  rwa [List.append_nil] at kept

end Mono

/-! ## The history of a network -/

/-- The log explains the state of every call and fetch. -/
structure Net.History (mount : TellingMount Hash Entry) (base : Bytes)
    (log : List (Nat × Bytes)) (net : Net Hash Entry) : Prop where
  file : net.session.file = fileWrites.version base log log.length
  numbered : net.session.seq ≤ log.length
  ahead : net.session.seq < log.length → log.length = net.session.seq + 1 ∧
      net.HasCall fun call => call.phase = .stored
  alone : net.AtMostOne fun phase => phase = .stored
  calls : ∀ id call, net.writes id = some call →
    CallFacts mount base log net.session.seq net.session.last call.off call.data call.phase
  last : ∀ b, (net.session.last b).getD 0 ≤ net.session.seq
  due : ∀ index write b, log[index]? = some write →
    misses mount.chunk write.1 write.2.len b = false →
    (net.session.last b).getD 0 ≤ index → net.HasCall fun call =>
      call.Number net.session.seq (index + 1) ∧ call.phase.Due b
  exclusive : ∀ b, net.AtMostOne (WritePhase.PendingAt b)
  separate : ∀ b id call phase, net.writes id = some call →
    call.phase.PendingAt b → net.fetches (.block b) = some phase → ¬phase.Admitted
  fetches : ∀ b phase, net.fetches (.block b) = some phase →
    FetchFacts mount base log net.session.seq net.session.last b phase
  blocksOnly : ∀ b subOff subLen, net.fetches (.range b subOff subLen) = none

variable {mount : TellingMount Hash Entry} {base : Bytes} {log : List (Nat × Bytes)}
  {net : Net Hash Entry} {count : Nat}

theorem Net.History.facts (history : net.History mount base log)
    {phase : WritePhase Hash} (here : net.writes id = some call) (current : call.phase = phase) :
    CallFacts mount base log net.session.seq net.session.last call.off call.data phase :=
  current ▸ history.calls id call here

theorem WriteCall.Number.of_seq {seq : Nat}
    (number : call.Number seq count) (stored : call.phase = .stored → later = seq) :
    call.Number later count := by
  rcases number with numbered | ⟨waiting, next⟩
  · exact .inl numbered
  · exact .inr ⟨waiting, stored waiting ▸ next⟩

/-- What a step of one write call has to establish.  `more` is what the step
adds to the log. -/
structure WriteStep (mount : TellingMount Hash Entry) (base : Bytes)
    (log more : List (Nat × Bytes)) (net : Net Hash Entry) (id : Nat)
    (call : WriteCall Hash) (session : Session Entry) (phase : WritePhase Hash) : Prop where
  file : session.file = fileWrites.version base (log ++ more) (log ++ more).length
  grows : net.session.seq ≤ session.seq
  numbered : session.seq ≤ (log ++ more).length
  ahead : session.seq < (log ++ more).length → (log ++ more).length = session.seq + 1 ∧
      (phase = .stored ∨ call.phase ≠ .stored ∧ net.session.seq < log.length)
  others : ∀ other found, other ≠ id → net.writes other = some found → found.phase = .stored →
    phase ≠ .stored ∧ more = [] ∧ session.seq = net.session.seq
  facts : CallFacts mount base (log ++ more) session.seq session.last call.off call.data phase
  bounded : ∀ b, (session.last b).getD 0 ≤ session.seq
  forward : ∀ b, (net.session.last b).getD 0 ≤ (session.last b).getD 0
  entries : ∀ b, (session.last b).getD 0 = (net.session.last b).getD 0 ∨ net.Free b
  due : ∀ index write b, log[index]? = some write →
    misses mount.chunk write.1 write.2.len b = false →
    (session.last b).getD 0 ≤ index →
    call.Number net.session.seq (index + 1) → call.phase.Due b →
    ({ call with phase } : WriteCall Hash).Number session.seq (index + 1) ∧ phase.Due b
  added : ∀ index write b, log.length ≤ index → (log ++ more)[index]? = some write →
    ({ call with phase } : WriteCall Hash).Number session.seq (index + 1) ∧ phase.Due b
  pending : ∀ b, phase.PendingAt b → call.phase.PendingAt b ∨ net.Free b
  unlabelled : session.seq = net.session.seq ∨ ∀ key fetch,
    net.fetches key = some fetch → ¬fetch.Unlabelled

variable {more : List (Nat × Bytes)} {id : Nat} {call : WriteCall Hash} {session : Session Entry}
  {phase : WritePhase Hash}

section

variable (history : net.History mount base log)
include history

section

variable (step : WriteStep mount base log more net id call session phase)
include step

theorem WriteStep.calls
    (there : (net.move id call session phase).writes other = some found) :
    CallFacts mount base (log ++ more) session.seq session.last found.off
      found.data found.phase := by
  rcases writes_setWrite there with ⟨rfl, rfl⟩ | ⟨ne, before⟩
  · exact step.facts
  apply CallFacts.mono step.grows _ _ (history.calls other found before)
  · intro waiting
    exact (step.others other found ne before waiting).2
  · intro b pending
    rcases step.entries b with kept | free
    · exact kept
    · exact absurd pending (free.writes other found before)

variable {b : Nat}

theorem WriteStep.due_of (here : net.writes id = some call)
    (found : (log ++ more)[index]? = some write)
    (hit : misses mount.chunk write.1 write.2.len b = false)
    (behind : (session.last b).getD 0 ≤ index) :
    (net.move id call session phase).HasCall fun call =>
        call.Number session.seq (index + 1) ∧ call.phase.Due b := by
  rcases Nat.lt_or_ge index log.length with old | new
  · rw [List.getElem?_append_left old] at found
    have has := history.due index write b found hit (Nat.le_trans (step.forward b) behind)
    apply has.setWrite here
    · rintro other call ne there ⟨number, due⟩
      refine ⟨number.of_seq ?_, due⟩
      intro waiting
      exact (step.others other call ne there waiting).2.2
    · rintro ⟨number, due⟩
      exact step.due index write b found hit behind number due
  · exact ⟨id, _, update_self _ _ _, step.added index write b new found⟩

theorem WriteStep.kept (here : net.writes id = some call) :
    (net.move id call session phase).History mount base (log ++ more) where
  __ := step
  ahead := by
    intro behind
    obtain ⟨length, waiting⟩ := step.ahead behind
    refine ⟨length, ?_⟩
    rcases waiting with mine | ⟨notMine, before⟩
    · exact ⟨id, _, update_self _ _ _, mine⟩
    apply (history.ahead before).2.setWrite here
    · intro other found _ _ waiting
      exact waiting
    · intro waiting
      exact absurd waiting notMine
  alone := by
    apply history.alone.setWrite here
    intro waiting
    right
    intro other found ne there theirs
    exact (step.others other found ne there theirs).1 waiting
  calls := fun _ _ there => step.calls history there
  last := step.bounded
  due := fun _ _ _ found hit behind => step.due_of history here found hit behind
  exclusive := by
    intro b
    apply (history.exclusive b).setWrite here
    intro pending
    apply (step.pending b pending).imp_right
    intro free other found _ there
    exact free.writes other found there
  separate := by
    intro b other found fetch there pending fetched
    rcases writes_setWrite there with ⟨rfl, rfl⟩ | ⟨_, earlier⟩
    · rcases step.pending b pending with before | free
      · exact history.separate b other call fetch here before fetched
      · exact free.fetches _ fetch fetched rfl
    · exact history.separate b other found fetch earlier pending fetched
  fetches := by
    intro b fetch fetched
    apply FetchFacts.mono step.grows history.numbered _ _ (history.fetches b fetch fetched)
    · intro unlabelled
      rcases step.unlabelled with same | labelled
      · exact same
      · exact absurd unlabelled (labelled _ fetch fetched)
    · intro admitted
      rcases step.entries b with kept | free
      · exact kept
      · exact absurd admitted (free.fetches _ fetch fetched rfl)
  blocksOnly := history.blocksOnly

end

/-- A step that adds nothing to the log. -/
theorem WriteStep.still (here : net.writes id = some call)
    (step : WriteStep mount base log [] net id call session phase) :
    (net.move id call session phase).History mount base log := by
  have kept := step.kept history here
  rwa [List.append_nil] at kept

theorem Net.History.issue
    (free : net.writes id = none) (off : Nat) (data : Bytes) : (net.setWrite id
      { off, data, phase := .sent }).History mount base log where
  __ := history
  ahead := fun behind => ⟨(history.ahead behind).1, (history.ahead behind).2.issue free⟩
  alone := history.alone.issue fun waiting => by cases waiting
  calls := by
    intro other found there
    rcases writes_setWrite there with ⟨rfl, rfl⟩ | ⟨_, before⟩
    · trivial
    · exact history.calls other found before
  due := fun index write b found hit behind =>
    (history.due index write b found hit behind).issue free
  exclusive := fun b => (history.exclusive b).issue fun pending => pending
  separate := by
    intro b other found fetch there pending fetched
    rcases writes_setWrite there with ⟨rfl, rfl⟩ | ⟨_, before⟩
    · exact pending.elim
    · exact history.separate b other found fetch before pending fetched

theorem Net.History.length_eq (idle : ∀ other found, net.writes other = some found →
      found.phase ≠ .stored) : log.length = net.session.seq := by
  rcases Nat.lt_or_eq_of_le history.numbered with behind | exactly
  · obtain ⟨other, found, there, waiting⟩ := (history.ahead behind).2
    exact absurd waiting (idle other found there)
  · exact exactly.symm

theorem Net.History.store (here : net.writes id = some call) (current : call.phase = .sent)
    (idle : ∀ other found, net.writes other = some found → found.phase ≠ .stored) :
    (net.move id call { net.session with file := fileWriteAt net.session.file call.off call.data
        } .stored).History mount base (log ++ [(call.off, call.data)]) := by
  have even := history.length_eq idle
  have length : (log ++ [(call.off, call.data)]).length = net.session.seq + 1 := by
    rw [List.length_append, List.length_singleton, even]
  have placed : (log ++ [(call.off, call.data)])[net.session.seq]? =
      some (call.off, call.data) := by
    rw [← even, List.getElem?_concat_length]
  refine WriteStep.kept history ?_ here
  constructor
  · rw [List.length_append, List.length_singleton, WriteModel.version_snoc, ← history.file]
    rfl
  · exact Nat.le_refl _
  · exact length ▸ le_succ _
  · exact fun _ => ⟨length, .inl rfl⟩
  · intro other found _ there waiting
    exact absurd waiting (idle other found there)
  · exact ⟨length, placed⟩
  · exact history.last
  · exact fun _ => Nat.le_refl _
  · exact fun _ => .inl rfl
  · intro index write b _ _ _ number
    rcases number with numbered | ⟨waiting, _⟩
    · rw [current] at numbered
      cases numbered
    · rw [current] at waiting
      cases waiting
  · intro index write b new found
    have inside := (List.getElem?_eq_some_iff.mp found).choose
    refine ⟨.inr ⟨rfl, ?_⟩, trivial⟩
    rw [length] at inside
    have same : index = net.session.seq := by omega
    rw [same]
  · intro b pending
    exact pending.elim
  · exact .inl rfl

theorem Net.History.bump (here : net.writes id = some call) (current : call.phase = .stored)
    (labelled : ∀ key fetch, net.fetches key = some fetch → ¬fetch.Unlabelled) :
    (net.move id call { net.session with seq := net.session.seq + 1 } (.numbered (net.session.seq
        + 1))).History mount base log := by
  obtain ⟨length, placed⟩ := history.facts here current
  apply WriteStep.still history here
  constructor
  · rw [List.append_nil]
    exact history.file
  · exact le_succ _
  · exact Nat.le_of_eq (by rw [List.append_nil, length])
  · intro behind
    rw [List.append_nil, length] at behind
    exact absurd behind (Nat.lt_irrefl _)
  · intro other found ne there waiting
    exact absurd (history.alone other found id call there here waiting current) ne
  · rw [List.append_nil]
    exact ⟨Nat.le_refl _, net.session.seq, rfl, placed⟩
  · exact fun b => le_succ_of_le (history.last b)
  · exact fun _ => Nat.le_refl _
  · exact fun _ => .inl rfl
  · intro index write b _ _ _ number _
    refine ⟨.inl ?_, trivial⟩
    rcases number with numbered | ⟨_, next⟩
    · rw [current] at numbered
      cases numbered
    · rw [next]
      rfl
  · intro index write b new found
    rw [List.append_nil, List.getElem?_eq_none new] at found
    cases found
  · intro b pending
    exact pending.elim
  · exact .inr labelled

/-- A step of a write call that leaves the file, the number and the table
alone. -/
structure QuietStep (mount : TellingMount Hash Entry) (base : Bytes)
    (log : List (Nat × Bytes)) (net : Net Hash Entry)
    (call : WriteCall Hash) (session : Session Entry) (phase : WritePhase Hash) : Prop where
  file : session.file = net.session.file
  seq : session.seq = net.session.seq
  last : session.last = net.session.last
  before : call.phase ≠ .stored
  after : phase ≠ .stored
  facts : CallFacts mount base log net.session.seq net.session.last call.off call.data phase
  due : ∀ index write b, log[index]? = some write →
    misses mount.chunk write.1 write.2.len b = false →
    (net.session.last b).getD 0 ≤ index →
    call.phase.seqNo = some (index + 1) → call.phase.Due b →
    phase.seqNo = some (index + 1) ∧ phase.Due b
  pending : ∀ b, phase.PendingAt b → call.phase.PendingAt b

theorem QuietStep.kept
    (here : net.writes id = some call) (step : QuietStep mount base log net call session phase) :
    (net.move id call session phase).History mount base log := by
  apply WriteStep.still history here
  constructor
  · rw [List.append_nil, step.file]
    exact history.file
  · exact Nat.le_of_eq (by rw [step.seq])
  · rw [List.append_nil, step.seq]
    exact history.numbered
  · rw [List.append_nil, step.seq]
    exact fun behind => ⟨(history.ahead behind).1, .inr ⟨step.before, behind⟩⟩
  · exact fun _ _ _ _ _ => ⟨step.after, rfl, step.seq⟩
  · rw [List.append_nil, step.seq, step.last]
    exact step.facts
  · rw [step.seq, step.last]
    exact history.last
  · rw [step.last]
    exact fun _ => Nat.le_refl _
  · rw [step.last]
    exact fun _ => .inl rfl
  · intro index write b found hit behind number due
    rw [step.last] at behind
    have numbered := number.resolve_right fun waiting =>
      step.before waiting.1
    obtain ⟨still, later⟩ := step.due index write b found hit behind numbered due
    exact ⟨.inl still, later⟩
  · intro index write b new found
    rw [List.append_nil, List.getElem?_eq_none new] at found
    cases found
  · exact fun b pending => .inl (step.pending b pending)
  · exact .inl step.seq

end

/-! ### Admission -/

variable {last : Nat → Option Nat}

theorem admitSeq_write (positive : 0 < count) (admitted : admits last b count true = true) :
    (admitSeq last b count true b).getD 0 = count ∧ (last b).getD 0 < count := by
  have newer : (last b).getD 0 < count := by
    cases entry : last b with
    | none => exact positive
    | some value => simpa [admits, entry] using admitted
  refine ⟨?_, newer⟩
  rw [admitSeq, if_pos ⟨admitted, newer⟩, update_self]
  rfl

theorem le_of_refused (refused : ¬admits last b count true = true) : count ≤ (last b).getD 0 := by
  cases entry : last b with
  | none => simp [admits, entry] at refused
  | some value => simpa [admits, entry] using refused

theorem admitSeq_fill (admitted : admits last b label false = true) :
    (admitSeq last b label false b).getD 0 = label ∧ (last b).getD 0 ≤ label := by
  have newer : (last b).getD 0 ≤ label := by
    cases entry : last b with
    | none => exact zero_le _
    | some value => simpa [admits, entry] using admitted
  refine ⟨?_, newer⟩
  unfold admitSeq
  split_ifs with above
  · rw [update_self]
    rfl
  · exact Nat.le_antisymm newer (Nat.not_lt.mp fun larger => above ⟨admitted, larger⟩)

theorem Net.History.admitWrite (history : net.History mount base log)
    (here : net.writes id = some call) {turn : Turn Hash} {turns : List (Turn Hash)}
    (current : call.phase = .applying reply (turn :: turns))
    (hit : misses mount.chunk call.off reply.n turn.b = false)
    (admitted : admits net.session.last turn.b reply.seq true = true) (free : net.Free turn.b) :
    (net.move id call { net.session with last := admitSeq net.session.last turn.b reply.seq true
        } (.admitted reply turn turns)).History mount base log := by
  obtain ⟨replied, remaining⟩ := history.facts here current
  obtain ⟨place, exactly, _⟩ := replied.place
  obtain ⟨entry, newer⟩ := admitSeq_write (by omega) admitted
  have entries : ∀ b, b ≠ turn.b → admitSeq net.session.last turn.b reply.seq true b =
        net.session.last b := fun b ne => admitSeq_of_ne ne
  apply WriteStep.still history here
  constructor
  · rw [List.append_nil]
    exact history.file
  · exact Nat.le_refl _
  · rw [List.append_nil]
    exact history.numbered
  · rw [List.append_nil]
    refine fun behind => ⟨(history.ahead behind).1, .inr ⟨?_, behind⟩⟩
    rw [current]
    intro waiting
    cases waiting
  · refine fun _ _ _ _ _ => ⟨?_, rfl, rfl⟩
    intro waiting
    cases waiting
  · rw [List.append_nil]
    exact ⟨replied, remaining, hit, entry⟩
  · intro b
    by_cases same : b = turn.b
    · rw [same]
      exact Nat.le_trans (Nat.le_of_eq entry) replied.numbered
    · simp only [entries b same]
      exact history.last b
  · intro b
    by_cases same : b = turn.b
    · rw [same]
      exact Nat.le_trans (Nat.le_of_lt newer) (Nat.le_of_eq entry.symm)
    · simp only [entries b same]
      exact Nat.le_refl _
  · intro b
    by_cases same : b = turn.b
    · exact .inr (same ▸ free)
    · exact .inl (congrArg (getD · 0) (entries b same))
  · intro index write b _ _ behind number due
    rw [WriteCall.Number, current] at number
    rw [current] at due
    have counted : reply.seq = index + 1 := by
      rcases number with numbered | ⟨waiting, _⟩
      · exact some.inj numbered
      · cases waiting
    refine ⟨.inl (congrArg some counted), ?_⟩
    obtain ⟨other, mem, same⟩ := due
    rcases List.mem_cons.mp mem with rfl | later
    · -- this block's entry has reached the write
      rw [← same] at behind
      simp only [entry] at behind
      omega
    · exact ⟨other, later, same⟩
  · intro index write b new found
    rw [List.append_nil, List.getElem?_eq_none new] at found
    cases found
  · intro b pending
    have same : turn.b = b := pending
    exact .inr (same ▸ free)
  · exact .inl rfl

/-! ### Fetches -/

/-- The fetch of a block goes on or ends.  The table may change at a block that
nothing is pending at. -/
theorem Net.History.setFetch (history : net.History mount base log)
    (file : session.file = net.session.file)
    (seq : session.seq = net.session.seq) (bounded : ∀ b, (session.last b).getD 0 ≤ session.seq)
    (forward : ∀ b, (net.session.last b).getD 0 ≤ (session.last b).getD 0)
    (entries : ∀ b, (session.last b).getD 0 = (net.session.last b).getD 0 ∨ net.Free b)
    (facts : ∀ phase, outcome = some phase →
      FetchFacts mount base log net.session.seq session.last b phase)
    (admitted : ∀ phase, outcome = some phase → phase.Admitted → net.Free b) :
    (setFetch { net with session } (.block b) outcome).History mount base log where
  __ := history
  file := file.trans history.file
  numbered := seq ▸ history.numbered
  ahead := by
    intro behind
    have before : net.session.seq < log.length := seq ▸ behind
    refine ⟨?_, (history.ahead before).2⟩
    exact (history.ahead before).1.trans (congrArg (· + 1) seq.symm)
  calls := by
    intro other found there
    simp only [Net.setFetch, seq]
    apply CallFacts.of_last _ (history.calls other found there)
    intro b pending
    exact (entries b).resolve_right fun free =>
      free.writes other found there pending
  last := bounded
  due := by
    intro index write b found hit behind
    have has := history.due index write b found hit (Nat.le_trans (forward b) behind)
    simp only [Net.setFetch, seq]
    exact has
  separate := by
    intro other writer call phase there pending fetched
    obtain ⟨⟨⟩, new⟩ | ⟨_, fetched⟩ := update_eq_iff.mp fetched
    · intro filling
      exact (admitted phase new filling).writes writer call there pending
    · exact history.separate other writer call phase there pending fetched
  fetches := by
    intro other phase fetched
    simp only [Net.setFetch, seq]
    obtain ⟨⟨⟩, new⟩ | ⟨_, fetched⟩ := update_eq_iff.mp fetched
    · exact facts phase new
    · apply FetchFacts.of_last history.numbered _ (history.fetches other phase fetched)
      intro filling
      exact (entries other).resolve_right fun free =>
        free.fetches _ phase fetched rfl filling
  blocksOnly := by
    intro other subOff subLen
    have ne : FetchKey.range other subOff subLen ≠ .block b := by
      intro same
      cases same
    simp only [Net.setFetch, update_of_ne ne]
    exact history.blocksOnly other subOff subLen

theorem Net.History.of_eq {next : Net Hash Entry} (history : net.History mount base log)
    (session : next.session = net.session) (writes : next.writes = net.writes)
    (fetches : next.fetches = net.fetches) : next.History mount base log := by
  obtain ⟨_, _, reads, _⟩ := next
  simp only at session writes fetches
  subst session writes fetches
  exact { history with }

end Cornus.Wire
