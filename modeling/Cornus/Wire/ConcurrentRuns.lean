import Cornus.Wire.ConcurrentCoherence
import Cornus.Wire.ConcurrentSizes
import Cornus.Wire.SequentialRuns

/-!
# Runs of concurrent requests

The steps of write calls and of fetches, taken under the conditions that keep
the numbers of writes in the order of the file and the table in the order of
the store, keep every cached byte accounted for.  Once no request is
outstanding the store answers with the file's bytes.  Two writes whose numbers
are taken against the order of the file break this.
-/

namespace Cornus.Wire

open List Padded Mount

open BlockCache Lib Function Option

variable {Hash Entry : Type}

section Fetches
variable {net : Net Hash Entry} {b : Nat}

/-! ## Steps of a fetch -/

theorem FetchFacts.serve [Inhabited Hash] (history : net.History mount base log)
    (facts : FetchFacts mount base log net.session.seq net.session.last b (.serving stage)) :
    FetchFacts mount base log net.session.seq net.session.last b
      (.serving (stage.next mount.hashChunk mount.chunk net.session.file
        net.session.seq (.block b 1))) := by
  cases stage with
  | arrived =>
    simp only [ReadStage.next, FetchFacts, history.file]
    exact ⟨fileWrites_version_len_le log history.numbered, Nat.le_refl _⟩
  | statted size =>
    exact ⟨rfl, rfl, rfl, Nat.le_refl _, facts.1, facts.2⟩
  | looping size label current left sent =>
    obtain ⟨rfl, rfl, rfl, labelled, seen, bounded⟩ := facts
    rw [← history.file] at bounded
    obtain ⟨length, content⟩ := readFrame_spec mount.hashChunk mount.chunk
      net.session.file label current 0 bounded
    refine ⟨_, rfl, ?_⟩
    constructor
    · exact labelled
    · rw [length]
      exact Nat.min_le_left _ _
    · refine ⟨log.length, Nat.le_trans labelled history.numbered, Nat.le_refl _, ?_⟩
      rw [← history.file]
      exact content
    · rw [length]
      intro short
      exact Nat.le_trans seen (by omega)
  | fetched data => exact facts.elim
  | replied reply => exact facts

theorem Net.Cached.setFetch (cached : net.Cached mount view base log)
    (idle : ∀ phase, net.fetches (.block b) = some phase →
      ¬phase.Admitted) (outcome : Option (FetchPhase Hash)) :
    (net.setFetch (.block b) outcome).Cached mount view base log := by
  refine cached.of_bucket rfl ?_
  intro other index value _ _ _ accounted
  refine accounted.of_eq rfl rfl rfl rfl ?_
  intro phase fetched admitted
  by_cases same : other = b
  · subst same
    exact absurd admitted (idle phase fetched)
  · have ne : FetchKey.block other ≠ .block b := by simpa using same
    exact (update_of_ne ne _ _).trans fetched

theorem Net.Cached.admitFill (cached : net.Cached mount view base log)
    (label : Nat) (hash : Hash) (data : Bytes) : (Net.setFetch { net with
        session := { net.session with last := admitSeq net.session.last b label false } } (.block b)
      (some (.admitted label hash data))).Cached mount view base log := by
  refine cached.of_bucket rfl ?_
  intro other index value _ _ _ accounted
  by_cases same : other = b
  · subst same
    exact .filling _ (update_self _ _ _) trivial
  · have ne : FetchKey.block other ≠ .block b := by simpa using same
    refine accounted.of_eq rfl rfl ?_ rfl ?_
    · simp only [Net.setFetch, admitSeq_of_ne same]
    · intro phase fetched _
      exact (update_of_ne ne _ _).trans fetched

theorem Net.Cached.fill (cached : net.Cached mount view base log) (lawful : mount.Lawful view)
    (history : net.History mount base log) {label : Nat} {hash : Hash}
    (fetched : net.fetches (.block b) = some (.admitted label hash data)) {next : Net Hash Entry}
    (moved : next = Net.setFetch { net with session := { net.session with
      bucket := mount.store.putHashed net.session.bucket b data hash } } (.block b) none)
    (after : next.History mount base log) : next.Cached mount view base log := by
  subst moved
  obtain ⟨filled, entry⟩ := history.fetches b _ fetched
  refine cached.overwrite after (lawful.putHashed_spec cached.sound filled.fits) ?_ ?_ ?_
  · obtain ⟨count, newer, within, content⟩ := filled.content
    exact ⟨count, Nat.le_trans (Nat.le_of_eq entry) newer, within, content⟩
  · intro short
    exact ⟨label, Nat.le_of_eq entry,
      Nat.le_trans filled.labelled history.numbered, filled.complete short⟩
  · intro other index value ne accounted
    refine accounted.of_eq rfl rfl rfl rfl ?_
    intro phase fetched _
    have apart : FetchKey.block other ≠ .block b := by simpa using ne
    exact (update_of_ne apart _ _).trans fetched

end Fetches

/-! ## The conditions -/

/-- What a write call needs of the state its next step is taken in.  `hashed` holds
the byte strings whose digests are taken or compared. -/
def Mount.OrderlyWrite (mount : Mount Hash Entry) (view : View Entry) (hashed : Set Bytes)
    (net : Net Hash Entry) (call : WriteCall Hash) : Prop :=
  match call.phase with
  | .sent => ∀ id found, net.writes id = some found → found.phase ≠ .stored
  | .stored => ∀ key fetch, net.fetches key = some fetch → ¬fetch.Unlabelled
  | .numbered _ =>
    (mount.entries net.session.file call.off call.data).length < 2 ^ 16 ∧
      mount.hashes net.session.file call.off call.data ⊆ hashed
  | .applying reply (turn :: _) =>
    misses mount.chunk call.off reply.n turn.b = false →
      admits net.session.last turn.b reply.seq true = true → net.Free turn.b
  | .admitted reply turn _ =>
    let part := blockPart mount.chunk call.data call.off reply.n reply.size turn.b
    turn.hash.isSome → view.Whole net.session.bucket turn.b →
      ¬part.Full → view.Ready net.session.bucket turn.b
        (part.chunkOff + part.data.len) part.chunkLen ∧
      (view.bytes net.session.bucket turn.b 0 part.chunkLen).splice part.chunkOff part.data ∈
        hashed
  | .verifying reply (unit :: _) =>
    ((mount.store.hashRange net.session.bucket unit.blockIdx unit.subOff unit.subLen).isSome →
      view.bytes net.session.bucket unit.blockIdx unit.subOff unit.subLen ∈ hashed) ∧
      (mount.store.hashRange net.session.bucket unit.blockIdx unit.subOff unit.subLen = none →
        view.Vacant net.session.bucket unit.blockIdx ∨
          (net.session.last unit.blockIdx).getD 0 ≤ reply.seq)
  | _ => True

/-- A fetch is admitted to a block that nothing is pending at. -/
def Net.OrderlyFetch [Inhabited Hash] (net : Net Hash Entry) (key : FetchKey) :
    FetchPhase Hash → Prop
  | .delivered reply => ∀ seq hash data,
      reply.content = some (seq, hash, data) →
        admits net.session.last key.b seq false = true → net.Free key.b
  | _ => True

/-- Events stay in range, writes are numbered in the order in which they reach the
file, reads take their labels apart from that, and whatever is admitted to a block
reaches the store before the next admission. -/
def Mount.Orderly [Inhabited Hash] (mount : Mount Hash Entry) (view : View Entry)
    (hashed : Set Bytes) (net : Net Hash Entry) (event : NetEvent) : Prop :=
  net.session.InRange mount.chunk event.reach ∧
    match event with
    | .write id _ => ∀ call, net.writes id = some call → mount.OrderlyWrite view hashed net call
    | .fetch key => ∀ phase, net.fetches key = some phase → net.OrderlyFetch key phase
    | _ => True

/-- Some log of writes explains the calls, the fetches and the cache. -/
def Net.Explained (mount : TellingMount Hash Entry) (view : View Entry)
    (base : Bytes) (net : Net Hash Entry) : Prop :=
  ∃ log, net.History mount base log ∧ net.Cached mount view base log

section Steps

variable {mount : TellingMount Hash Entry} {view : View Entry} {base : Bytes}
  {net next : Net Hash Entry}

theorem Net.Explained.of_eq (explained : net.Explained mount view base)
    (session : next.session = net.session) (writes : next.writes = net.writes)
    (fetches : next.fetches = net.fetches) : next.Explained mount view base := by
  obtain ⟨log, history, cached⟩ := explained
  refine ⟨log, history.of_eq session writes fetches, ?_⟩
  refine cached.of_bucket (congrArg _ session) ?_
  intro b index value _ _ _ accounted
  refine accounted.of_eq (congrArg _ session) (congrArg _ session) ?_ writes ?_
  · rw [session]
  · intro phase fetched _
    rw [fetches]
    exact fetched

section

variable (explained : net.Explained mount view base)
include explained

theorem Net.Explained.setFetch (idle : ∀ phase, net.fetches (.block b) = some phase →
      ¬phase.Admitted) (facts : ∀ log, net.History mount base log → ∀ phase,
      outcome = some phase → FetchFacts mount base log net.session.seq
        net.session.last b phase ∧ ¬phase.Admitted) :
    (net.setFetch (.block b) outcome).Explained mount view base := by
  obtain ⟨log, history, cached⟩ := explained
  refine ⟨log, ?_, cached.setFetch idle outcome⟩
  refine history.setFetch rfl rfl history.last (fun _ => Nat.le_refl _) (fun _ => .inl rfl) ?_ ?_
  · exact fun phase goes => (facts log history phase goes).1
  · intro phase goes admitted
    exact absurd admitted (facts log history phase goes).2

variable {label : Nat} {hash : Hash} {data : Bytes}

theorem Net.Explained.admitFill [Inhabited Hash]
    (fetched : net.fetches (.block b) = some (.delivered reply))
    (content : reply.content = some (label, hash, data))
    (admitted : admits net.session.last b label false = true) (free : net.Free b) :
    (Net.setFetch { net with
        session := { net.session with last := admitSeq net.session.last b label false } } (.block b)
      (some (.admitted label hash data))).Explained mount view base := by
  obtain ⟨log, history, cached⟩ := explained
  refine ⟨log, ?_, cached.admitFill label hash data⟩
  obtain ⟨frame, rfl, filled⟩ := history.fetches b _ fetched
  cases content
  obtain ⟨entry, newer⟩ := admitSeq_fill admitted
  refine history.setFetch rfl rfl ?_ ?_ ?_ ?_ (fun _ _ _ => free)
  · intro other
    by_cases same : other = b
    · subst same
      exact Nat.le_trans (Nat.le_of_eq entry) filled.labelled
    · simp only [admitSeq_of_ne same]
      exact history.last other
  · intro other
    by_cases same : other = b
    · subst same
      exact Nat.le_trans newer (Nat.le_of_eq entry.symm)
    · simp only [admitSeq_of_ne same]
      exact Nat.le_refl _
  · intro other
    by_cases same : other = b
    · exact .inr (same ▸ free)
    · simp only [admitSeq_of_ne same]
      exact .inl trivial
  · rintro phase ⟨⟩
    exact ⟨filled, entry⟩

theorem Net.Explained.fill (lawful : mount.Lawful view)
    (fetched : net.fetches (.block b) = some (.admitted label hash data)) :
    (Net.setFetch { net with session := { net.session with
      bucket := mount.store.putHashed net.session.bucket b data hash } } (.block b)
        none).Explained mount view base := by
  obtain ⟨log, history, cached⟩ := explained
  refine ⟨log, ?after, cached.fill lawful history fetched rfl ?after⟩
  refine history.setFetch rfl rfl history.last (fun _ => Nat.le_refl _) (fun _ => .inl rfl) ?_ ?_
  · rintro phase ⟨⟩
  · rintro phase ⟨⟩

theorem Net.Explained.stepFetch [Inhabited Hash] [DecidableEq Hash] (lawful : mount.Lawful view)
    (orderly : mount.Orderly view mount.hashed net (.fetch key))
    (taken : mount.netStep net (.fetch key) = some next) : next.Explained mount view base := by
  simp only [netStep, map_eq_some_iff] at taken
  obtain ⟨phase, fetched, rfl⟩ := taken
  cases key with
  | range b subOff subLen =>
    obtain ⟨log, history, _⟩ := explained
    rw [history.blocksOnly] at fetched
    cases fetched
  | block b =>
    have idle : ¬phase.Admitted → ∀ other,
        net.fetches (.block b) = some other → ¬other.Admitted := by
      intro unadmitted other found
      rw [fetched, some.injEq] at found
      exact found ▸ unadmitted
    cases phase with
    | serving stage =>
      have serves : ∀ log, net.History mount base log →
          ∀ outcome, some (FetchPhase.serving (stage.next
            mount.hashChunk mount.chunk net.session.file net.session.seq
            (.block b 1))) = some outcome →
          FetchFacts mount base log net.session.seq net.session.last b
            outcome ∧ ¬outcome.Admitted := by
        rintro log history outcome ⟨⟩
        exact ⟨(history.fetches b _ fetched).serve history, id⟩
      cases stage with
      | arrived | statted size | looping size label current left sent | fetched data =>
        exact explained.setFetch (idle id) serves
      | replied reply =>
        refine explained.setFetch (idle id) ?_
        rintro log history outcome ⟨⟩
        have facts := history.fetches b _ fetched
        exact ⟨facts, id⟩
    | delivered reply =>
      simp only [Mount.stepFetch]
      cases content : reply.content with
      | none =>
        refine Net.Explained.of_eq (explained.setFetch (idle id) ?_) rfl rfl rfl
        rintro log history outcome ⟨⟩
      | some labelled =>
        obtain ⟨label, hash, data⟩ := labelled
        by_cases admitted : admits net.session.last b label false = true
        · simp only [FetchKey.b, admitted, if_true]
          exact explained.admitFill fetched content admitted
            (orderly.2 _ fetched label hash data content admitted)
        · simp only [FetchKey.b, admitted, Bool.false_eq_true, if_false]
          refine Net.Explained.of_eq (explained.setFetch (idle id) ?_) rfl rfl rfl
          rintro log history outcome ⟨⟩
    | admitted label hash data =>
      exact Net.Explained.of_eq (explained.fill lawful fetched) rfl rfl rfl

end

/-! ## Steps of a write call -/

section Writes

variable {log : List (Nat × Bytes)} {id : Nat} {call : WriteCall Hash} {reply : WriteReply Hash}

theorem ReplyFacts.write_eq
    (facts : ReplyFacts mount base log seq off data reply) (found : log[index]? = some write)
    (counted : reply.seq = index + 1) : write = (off, data) := by
  obtain ⟨place, exactly, placed⟩ := facts.place
  have same : place = index := by omega
  rw [same, found, some.injEq] at placed
  exact placed

theorem Net.History.replyFacts (history : net.History mount base log)
    (inline : mount.features.deferHash = false) (here : net.writes id = some call)
    (current : call.phase = .numbered seq)
    (bounded : (mount.entries net.session.file call.off call.data).length < 2 ^ 16)
    (hashed : mount.hashes net.session.file call.off call.data ⊆ mount.hashed)
    (mtimeNs : Nat) : ReplyFacts mount base log net.session.seq call.off call.data
      (mount.writeReply net.session.file call.off call.data seq mtimeNs) := by
  obtain ⟨numbered, place⟩ := history.facts here current
  have units : (mount.writeReply net.session.file call.off call.data seq mtimeNs).units =
      mount.entries net.session.file call.off call.data := by
    unfold entries entriesOf at bounded ⊢
    simp only [writeReply, replyUnits, inline, Bool.false_eq_true, if_false, putUnitHashes]
    split_ifs at bounded ⊢
    · rw [Nat.mod_eq_of_lt bounded, take_length]
    · rw [Nat.mod_eq_of_lt bounded, take_length]
  refine ⟨rfl, numbered, place, log.length,
    Nat.le_trans numbered history.numbered, Nat.le_refl _, ?_, ?_, ?_⟩
  · exact congrArg len history.file
  · rw [units, history.file]
  · rwa [← history.file]

section

variable {session : Session Entry} {phase : WritePhase Hash} (here : net.writes id = some call)
  (file : session.file = net.session.file) (seq : session.seq = net.session.seq)
  (last : session.last = net.session.last) (numbered : call.phase.seqNo = some reply.seq)
  (number : phase.seqNo = some reply.seq)
include here file seq last numbered number

theorem Net.History.quiet (history : net.History mount base log)
    (facts : CallFacts mount base log net.session.seq net.session.last call.off call.data phase)
    (due : ∀ index write b, log[index]? = some write →
      misses mount.chunk write.1 write.2.len b = false →
      (net.session.last b).getD 0 ≤ index → reply.seq = index + 1 → call.phase.Due b → phase.Due b)
    (pending : ∀ b, phase.PendingAt b → call.phase.PendingAt b) :
    (net.move id call session phase).History mount base log := by
  have unstored : ∀ found : WritePhase Hash, found.seqNo = some reply.seq → found ≠ .stored := by
    rintro found counted rfl
    cases counted
  apply QuietStep.kept history here
  constructor
  · exact file
  · exact seq
  · exact last
  · exact unstored _ numbered
  · exact unstored _ number
  · exact facts
  · intro index write b found hit behind counted isDue
    rw [numbered, some.injEq] at counted
    exact ⟨number.trans (congrArg some counted), due index write b found hit behind counted isDue⟩
  · exact pending

theorem Net.History.verifies (history : net.History mount base log)
    (facts : CallFacts mount base log net.session.seq net.session.last call.off call.data phase)
    (undue : ∀ b, ¬call.phase.Due b) (calm : ∀ b, ¬phase.PendingAt b) :
    (net.move id call session phase).History mount base log := by
  apply history.quiet here file seq last numbered number facts
  · exact fun _ _ b _ _ _ _ due => absurd due (undue b)
  · exact fun b pending => absurd pending (calm b)

theorem Net.Explained.reply_passes (explained : net.Explained mount view base)
    (bucket : session.bucket = net.session.bucket) (facts : ∀ log, net.History mount base log →
      CallFacts mount base log net.session.seq net.session.last call.off call.data phase)
    (due : ∀ log, net.History mount base log → ∀ index write b, log[index]? = some write →
      misses mount.chunk write.1 write.2.len b = false → reply.seq = index + 1 → phase.Due b)
    (unverified : ∀ b index, phase.Unverified b index)
    (calm : ∀ b, ¬call.phase.PendingAt b ∧ ¬phase.PendingAt b) :
    (net.move id call session phase).Explained mount view base := by
  obtain ⟨log, history, cached⟩ := explained
  refine ⟨log, ?_, ?_⟩
  · apply history.quiet here file seq last numbered number (facts log history)
    · intro index write b found hit _ counted _
      exact due log history index write b found hit counted
    · exact fun b pending => absurd pending (calm b).2
  · refine cached.passes here bucket file last seq ?_
      (number.trans numbered.symm) unverified (fun b => (calm b).1)
    intro waiting
    rw [waiting] at numbered
    cases numbered

end

section

variable (explained : net.Explained mount view base) (here : net.writes id = some call)
include explained here

variable {turns : List (Turn Hash)}

theorem Net.Explained.skipTurn {turn : Turn Hash}
    (current : call.phase = .applying reply (turn :: turns))
    (skipped : misses mount.chunk call.off reply.n turn.b = false →
      reply.seq ≤ (net.session.last turn.b).getD 0) :
    (net.setWrite id { call with phase := .applying reply turns }).Explained mount view base := by
  obtain ⟨log, history, cached⟩ := explained
  obtain ⟨replied, members⟩ := history.facts here current
  refine ⟨log, ?_, ?_⟩
  · apply history.quiet here rfl rfl rfl (by rw [current]; rfl) (by rfl)
    · exact ⟨replied, fun other mem =>
        members other (mem_cons_of_mem _ mem)⟩
    · intro index write b found hit behind counted due
      rw [current] at due
      obtain ⟨other, mem, same⟩ := due
      rcases mem_cons.mp mem with rfl | later
      · -- the write's own entry would not be behind it
        rw [replied.write_eq found counted, ← same, ← replied.length] at hit
        have reached := skipped hit
        rw [same] at reached
        omega
      · exact ⟨other, later, same⟩
    · exact fun _ pending => pending.elim
  · refine cached.passes here rfl rfl rfl rfl ?_ ?_ (fun _ _ => trivial) ?_
    · simp [current]
    · rw [current]
      rfl
    · rw [current]
      exact fun _ pending => pending

theorem Net.Explained.deliver (current : call.phase = .delivered reply) :
    (net.move id call { net.session with size := reply.size } (.applying reply (mount.turns
        call.off reply))).Explained mount view base := by
  have replied : ∀ log, net.History mount base log →
      ReplyFacts mount base log net.session.seq call.off call.data reply := by
    intro log history
    exact history.facts here current
  apply explained.reply_passes here (by rfl) (by rfl) (by rfl) (by rw [current]; rfl) (by rfl)
    (by rfl)
  · intro log history
    exact ⟨replied log history, fun _ mem => mem⟩
  · intro log history index write b found hit counted
    rw [(replied log history).write_eq found counted] at hit
    exact (replied log history).turn hit
  · exact fun _ _ => trivial
  · intro b
    rw [current]
    exact ⟨fun pending => pending, fun pending => pending⟩

theorem Net.Explained.turn [DecidableEq Hash] (inline : mount.features.deferHash = false)
    (current : call.phase = .applying reply turns)
    (free : ∀ turn rest, turns = turn :: rest → misses mount.chunk call.off reply.n turn.b = false →
      admits net.session.last turn.b reply.seq true = true → net.Free turn.b) (mtimeNs : Nat) :
    (net.move id call (mount.stepWrite net.session call.off call.data mtimeNs (.applying reply
        turns)).1 (mount.stepWrite net.session call.off call.data mtimeNs (.applying reply
            turns)).2).Explained mount view base := by
  cases turns with
  | nil =>
    obtain ⟨log, history, cached⟩ := explained
    refine ⟨log, ?_, cached.verify here history inline current⟩
    have facts := history.facts here current
    apply history.quiet here rfl rfl rfl (by rw [current]; rfl) (by rfl)
    · exact ⟨facts.1, fun _ mem => mem⟩
    · intro index write b _ _ _ _ due
      rw [current] at due
      obtain ⟨turn, mem, _⟩ := due
      cases mem
    · exact fun _ pending => pending.elim
  | cons turn turns =>
    by_cases missed : misses mount.chunk call.off reply.n turn.b = true
    · simp only [stepWrite, missed, if_true]
      apply explained.skipTurn here current
      intro hit
      rw [missed] at hit
      cases hit
    · rw [Bool.not_eq_true] at missed
      by_cases admitted : admits net.session.last turn.b reply.seq true = true
      · simp only [stepWrite, missed, Bool.false_eq_true, if_false, admitted, if_true]
        obtain ⟨log, history, cached⟩ := explained
        have open_ := free turn turns rfl missed admitted
        exact ⟨log, history.admitWrite here current missed admitted open_,
          cached.admitWrite here history current admitted open_⟩
      · simp only [stepWrite, missed, Bool.false_eq_true, if_false, admitted]
        exact explained.skipTurn here current fun _ =>
          le_of_refused admitted

end

section

variable (explained : net.Explained mount view base) (lawful : mount.Lawful view)
  (inline : mount.features.deferHash = false) (here : net.writes id = some call)
include explained lawful inline here

theorem Net.Explained.verify [DecidableEq Hash]
    (current : call.phase = .verifying reply units) (settled : ∀ unit rest, units = unit :: rest →
      ((mount.store.hashRange net.session.bucket unit.blockIdx unit.subOff unit.subLen).isSome →
        view.bytes net.session.bucket unit.blockIdx unit.subOff unit.subLen ∈ mount.hashed) ∧
      (mount.store.hashRange net.session.bucket unit.blockIdx unit.subOff unit.subLen = none →
        view.Vacant net.session.bucket unit.blockIdx ∨
          (net.session.last unit.blockIdx).getD 0 ≤ reply.seq)) (mtimeNs : Nat) :
    (net.move id call (mount.stepWrite net.session call.off call.data mtimeNs (.verifying reply
        units)).1 (mount.stepWrite net.session call.off call.data mtimeNs (.verifying reply
            units)).2).Explained mount view base := by
  obtain ⟨log, history, cached⟩ := explained
  obtain ⟨replied, members⟩ := history.facts here current
  have numbered : call.phase.seqNo = some reply.seq := by
    rw [current]
    rfl
  have undue : ∀ b, ¬call.phase.Due b := by
    intro b
    rw [current]
    exact fun due => due
  cases units with
  | nil =>
    refine ⟨log, ?_, cached.hint here lawful current⟩
    apply QuietStep.kept history here
    constructor
    · rfl
    · rfl
    · rfl
    · simp [current]
    · simp [stepWrite]
    · trivial
    · exact fun _ _ b _ _ _ _ due => absurd due (undue b)
    · exact fun _ pending => pending.elim
  | cons unit units =>
    have remaining : ∀ other ∈ units, other ∈ mount.checks reply :=
      fun other mem => members other (mem_cons_of_mem _ mem)
    have onwards : (net.move id call net.session (.verifying reply units)).History mount base log :=
      history.verifies here rfl rfl rfl numbered rfl ⟨replied, remaining⟩ undue
        fun _ pending => pending
    simp only [stepWrite]
    cases found : mount.store.hashRange net.session.bucket unit.blockIdx
        unit.subOff unit.subLen with
    | none =>
      exact ⟨log, onwards, cached.unheld here lawful current ((settled unit units rfl).2 found)⟩
    | some hash =>
      by_cases same : hash = unit.hash
      · subst same
        simp only [if_pos]
        exact ⟨log, onwards, cached.matches here lawful history inline current
          ((settled unit units rfl).1 (by rw [found]; rfl)) found⟩
      · simp only [if_neg same]
        refine ⟨log, ?_, cached.mismatches here current⟩
        exact history.verifies here rfl rfl rfl numbered rfl
          ⟨replied, remaining⟩ undue fun _ pending => pending

theorem Net.Explained.stepWrite [Inhabited Hash] [DecidableEq Hash]
    (orderly : mount.OrderlyWrite view mount.hashed net call) (mtimeNs : Nat) :
    (net.move id call (mount.stepWrite net.session call.off call.data mtimeNs call.phase).1
        (mount.stepWrite net.session call.off call.data mtimeNs call.phase).2).Explained mount
            view base := by
  unfold Mount.OrderlyWrite at orderly
  cases current : call.phase with
  | sent =>
    rw [current] at orderly
    obtain ⟨log, history, cached⟩ := explained
    exact ⟨_, history.store here current orderly, cached.store here history current⟩
  | stored =>
    rw [current] at orderly
    obtain ⟨log, history, cached⟩ := explained
    exact ⟨log, history.bump here current orderly, cached.bump here history current⟩
  | numbered seq =>
    rw [current] at orderly
    have numbered : call.phase.seqNo =
        some (mount.writeReply net.session.file call.off call.data seq mtimeNs).seq := by
      rw [current]
      rfl
    refine explained.reply_passes here (by rfl) (by rfl) (by rfl) numbered (by rfl) (by rfl)
      ?_ ?_ (fun _ _ => trivial) ?_
    · intro log history
      exact history.replyFacts inline here current orderly.1 orderly.2 mtimeNs
    · exact fun _ _ _ _ _ _ _ _ => trivial
    · intro b
      rw [current]
      exact ⟨fun pending => pending, fun pending => pending⟩
  | replied reply =>
    apply explained.reply_passes here rfl rfl rfl (by rw [current]; rfl) (by rfl) (by rfl)
    · intro log history
      have facts := history.facts here current
      exact facts
    · exact fun _ _ _ _ _ _ _ _ => trivial
    · exact fun _ _ => trivial
    · intro b
      rw [current]
      exact ⟨fun pending => pending, fun pending => pending⟩
  | delivered reply => exact explained.deliver here current
  | applying reply turns =>
    apply explained.turn here inline current
    rintro turn rest rfl
    rw [current] at orderly
    exact orderly
  | admitted reply turn turns =>
    rw [current] at orderly
    obtain ⟨log, history, cached⟩ := explained
    obtain ⟨replied, members, _⟩ := history.facts here current
    refine ⟨log, ?after,
      cached.applied lawful history inline here current rfl orderly rfl ?after⟩
    apply history.quiet here (by rfl) (by rfl) (by rfl) (by rw [current]; rfl) (by rfl)
    · exact ⟨replied, fun other mem => members other (mem_cons_of_mem _ mem)⟩
    · intro _ _ b _ _ _ _ due
      rw [current] at due
      exact due
    · exact fun _ pending => pending.elim
  | verifying reply units =>
    apply explained.verify lawful inline here current
    rintro unit rest rfl
    rw [current] at orderly
    exact orderly
  | dropping reply b units =>
    obtain ⟨log, history, cached⟩ := explained
    have facts := history.facts here current
    refine ⟨log, ?_, cached.drop here lawful current⟩
    apply history.verifies here (by rfl) (by rfl) (by rfl) (by rw [current]; rfl) (by rfl)
    · exact facts
    · rw [current]
      exact fun _ due => due
    · exact fun _ pending => pending
  | returned =>
    have same : ({ call with phase := .returned } : WriteCall Hash) = call := by
      rw [← current]
    refine explained.of_eq rfl ?_ rfl
    simp only [Mount.stepWrite, Net.setWrite, same]
    exact update_eq_self_iff.mpr here.symm

end

end Writes

/-! ## Read calls -/

theorem lookup_key (noFill : mount.features.subBlockFill = false)
    (bucket : Option Entry) (size stop pos : Nat) :
    (mount.lookup bucket size stop pos).1 = .block (pos / mount.chunk.bytes) := by
  simp only [Mount.lookup, noFill, Bool.false_eq_true, if_false]

section

variable (explained : net.Explained mount view base)
include explained

theorem Net.Explained.joinFetch (b : Nat) :
    (net.joinFetch (.block b)).Explained mount view base := by
  unfold Net.joinFetch
  split_ifs with joined
  · exact explained
  apply explained.setFetch
  · intro phase fetched
    rw [fetched] at joined
    exact absurd rfl joined
  · rintro log history phase ⟨⟩
    exact ⟨trivial, fun admitted => admitted⟩

theorem Net.Explained.stepRead {id : Nat} (noFill : mount.features.subBlockFill = false)
    (taken : mount.stepRead net id call = some next) : next.Explained mount view base := by
  unfold Mount.stepRead at taken
  split at taken
  · split_ifs at taken
    · have block := lookup_key noFill net.session.bucket call.size call.stop call.pos
      split at taken
      · cases taken
        exact explained.of_eq rfl rfl rfl
      · rename_i key start looked
        cases taken
        rw [looked] at block
        have same : key = .block (call.pos / mount.chunk.bytes) := block
        subst same
        exact Net.Explained.of_eq (explained.joinFetch _) rfl rfl rfl
    · cases taken
      exact explained.of_eq rfl rfl rfl
  · cases taken
    exact explained.of_eq rfl rfl rfl
  · cases taken
    exact explained.of_eq rfl rfl rfl
  · cases taken
  · cases taken

theorem Net.Explained.prefetch [Inhabited Hash] [DecidableEq Hash]
    (noFill : mount.features.subBlockFill = false)
    (taken : mount.netStep net (.prefetch size stop pos) = some next) :
    next.Explained mount view base := by
  have block := lookup_key noFill net.session.bucket size stop pos
  simp only [netStep] at taken
  split at taken
  · cases taken
    exact explained
  · rename_i key start looked
    cases taken
    rw [looked] at block
    have same : key = .block (pos / mount.chunk.bytes) := block
    subst same
    exact explained.joinFetch _

/-! ## Runs -/

/-- One orderly event keeps the state explained by the history. -/
theorem netStep_explained [Inhabited Hash] [DecidableEq Hash] (lawful : mount.Lawful view)
    (inline : mount.features.deferHash = false) (noFill : mount.features.subBlockFill = false)
    (orderly : mount.Orderly view mount.hashed net event)
    (taken : mount.netStep net event = some next) : next.Explained mount view base := by
  cases event with
  | issueWrite id off data =>
    simp only [netStep, ite_none_left_eq_some, some.injEq, not_isSome_iff_eq_none] at taken
    obtain ⟨free, rfl⟩ := taken
    obtain ⟨log, history, cached⟩ := explained
    exact ⟨log, history.issue free off data, cached.issue free off data⟩
  | issueRead id off length =>
    simp only [netStep, ite_none_left_eq_some, some.injEq] at taken
    obtain ⟨_, rfl⟩ := taken
    exact explained.of_eq rfl rfl rfl
  | write id mtimeNs =>
    simp only [netStep, map_eq_some_iff] at taken
    obtain ⟨call, here, rfl⟩ := taken
    exact explained.stepWrite lawful inline here (orderly.2 call here) mtimeNs
  | read id =>
    simp only [netStep, bind_eq_some_iff] at taken
    obtain ⟨call, _, stepped⟩ := taken
    exact explained.stepRead noFill stepped
  | prefetch size stop pos => exact explained.prefetch noFill taken
  | fetch key => exact explained.stepFetch lawful orderly taken

end

theorem opened_explained (lawful : mount.Lawful view) (file : Bytes) (mtimeNs : Nat) :
    (mount.opened file mtimeNs).Explained mount view file := by
  have last : ∀ b, (mount.opened file mtimeNs).session.last b = none := by
    intro b
    exact congrFun (ite_self fun _ => none) b
  have bucket : (mount.opened file mtimeNs).session.bucket =
      mount.store.setHint none file.len mtimeNs := by
    exact congrArg (mount.store.setHint · file.len mtimeNs) (ite_self none)
  have empty : view.Uniform none := fun b => .inr (lawful.vacant_none b)
  refine ⟨[], ?_, ?_⟩
  · constructor
    · exact fileWrites.version_zero.symm
    · exact Nat.le_refl _
    · exact fun behind => absurd behind (Nat.lt_irrefl _)
    · rintro id call other found ⟨⟩
    · rintro id call ⟨⟩
    · intro b
      rw [last]
      exact Nat.le_refl _
    · rintro index write b ⟨⟩
    · rintro b id call other found ⟨⟩
    · rintro b id call phase ⟨⟩
    · rintro b phase ⟨⟩
    · exact fun _ _ _ => rfl
  · constructor
    · rw [bucket]
      exact lawful.setHint_sound lawful.sound_none
    · rw [bucket]
      exact empty.setHint lawful file.len mtimeNs
    · intro b index _ _ _
      rw [bucket, lawful.setHint_byte]
      exact lawful.byte_none b index
    · intro b index inChunk marked
      rw [bucket, lawful.setHint_marked] at marked
      exact absurd marked (lawful.vacant_marked lawful.sound_none (lawful.vacant_none b) inChunk)

theorem Net.Explained.answers (explained : net.Explained mount view base)
    (lawful : mount.Lawful view) (quiescent : net.Quiescent) :
    Answers mount.store mount.hashChunk mount.chunk net.session.file net.session.bucket := by
  obtain ⟨log, history, cached⟩ := explained
  apply View.answers_of_marked lawful cached.sound
  intro b index inChunk marked
  cases cached.accounted b index inChunk marked with
  | right same => exact same
  | later unquiet =>
    simp only [WriteModel.Quiet, not_forall, not_not] at unquiet
    obtain ⟨place, write, behind, found, covers⟩ := unquiet
    obtain ⟨id, call, here, _, due⟩ := history.due place write b found
      (misses_of_covers inChunk covers) behind
    rw [quiescent.writes id call here] at due
    exact due.elim
  | refused count _ _ _ has =>
    obtain ⟨id, call, here, _, unverified⟩ := has
    rw [quiescent.writes id call here] at unverified
    exact unverified.elim
  | pending has =>
    obtain ⟨id, call, here, pending, _⟩ := has
    rw [quiescent.writes id call here] at pending
    exact pending.elim
  | filling phase fetched _ =>
    rw [quiescent.fetches] at fetched
    cases fetched

end Steps

/-- Once no request is outstanding, whatever the store answers is what the
caller's file holds. -/
def Mount.Settles [Inhabited Hash] [DecidableEq Hash] (mount : Mount Hash Entry)
    (allowed : Net Hash Entry → NetEvent → Prop) : Prop :=
  ∀ file mtimeNs events final,
    Along mount.netStep allowed (mount.opened file mtimeNs) events →
    run mount.netStep (mount.opened file mtimeNs) events = some final →
    final.Quiescent →
    Answers mount.store mount.hashChunk mount.chunk final.session.file final.session.bucket

/-- Orderly runs settle if no two strings that are hashed collide. -/
theorem settles_of_orderly [Inhabited Hash] [DecidableEq Hash]
    (backend : Backend) {hashChunk : Bytes → Hash} {hashed : Set Bytes}
    (tells : Set.InjOn hashChunk hashed) (chunk : ChunkSize)
    (features : Features) (inline : features.deferHash = false)
    (noFill : features.subBlockFill = false) : (mountOf backend hashChunk chunk features).Settles
      ((mountOf backend hashChunk chunk features).Orderly (backend.view Hash chunk) hashed) := by
  intro file mtimeNs events final along reached quiescent
  have lawful := backend.lawful hashChunk chunk
  let mount : TellingMount Hash (backend.Entry Hash) :=
    { mountOf backend hashChunk chunk features with hashed, tells }
  have explained : final.Explained mount (backend.view Hash chunk) file :=
    run_invariant (fun _ _ _ explained orderly taken =>
        netStep_explained explained lawful inline noFill orderly taken)
      (opened_explained lawful file mtimeNs) along reached
  exact explained.answers lawful quiescent

/-! ## Runs of writes alone -/

section Checks

def Net.allPhases (ids : List Nat) (net : Net Hash Entry)
    (permitted : WritePhase Hash → Bool) : Bool :=
  ids.all fun id => (net.writes id).all fun found => permitted found.phase

variable (mount : Mount Hash Entry) (ids : List Nat) (net : Net Hash Entry)

/-- The condition on a write call, checked against the given calls. -/
def Mount.orderlyCall (call : WriteCall Hash) : Bool :=
  match call.phase with
  | .sent => net.allPhases ids fun phase =>
    match phase with
    | .stored => false
    | _ => true
  | .numbered _ =>
    (mount.entries net.session.file call.off call.data).length < 2 ^ 16
  | .applying _ (turn :: _) => net.allPhases ids fun phase =>
    match phase with
    | .admitted _ pending _ => pending.b != turn.b
    | _ => true
  | .admitted reply turn _ =>
    let part := blockPart mount.chunk call.data call.off reply.n reply.size turn.b
    part.chunkOff == 0 && part.data.len == part.chunkLen
  | .verifying _ (_ :: _) => false
  | _ => true

/-- The conditions of `Orderly`, checked for runs of the given writes. -/
def Mount.orderlyAmong (event : NetEvent) : Bool :=
  decide (event.WritesAmong ids) && decide (net.session.InRange mount.chunk event.reach) &&
    match event with
    | .write id _ => (net.writes id).all (mount.orderlyCall ids net)
    | _ => true

variable {mount : Mount Hash Entry} {net : Net Hash Entry} {ids : List Nat} {call : WriteCall Hash}

theorem Net.WritesOnly.all (only : net.WritesOnly ids)
    (checked : net.allPhases ids permitted = true) {id : Nat} (here : net.writes id = some call) :
    permitted call.phase = true := by
  by_cases mem : id ∈ ids
  · have mine := all_eq_true.mp checked id mem
    rw [here] at mine
    exact mine
  · rw [only.writes id mem] at here
    cases here

variable (view : View Entry)

theorem orderly_of_call (only : net.WritesOnly ids)
    (checked : mount.orderlyCall ids net call = true) :
    mount.OrderlyWrite view Set.univ net call := by
  unfold Mount.OrderlyWrite
  cases current : call.phase with
  | sent =>
    simp only [orderlyCall, current] at checked
    intro id found here waiting
    have permitted := only.all checked here
    rw [waiting] at permitted
    cases permitted
  | stored =>
    intro key fetch fetched
    rw [only.fetches key] at fetched
    cases fetched
  | numbered seq =>
    simp only [orderlyCall, current] at checked
    exact ⟨of_decide_eq_true checked, fun _ _ => trivial⟩
  | applying reply turns =>
    simp only [orderlyCall, current] at checked
    cases turns with
    | nil => trivial
    | cons turn turns =>
      intro _ _
      constructor
      · intro id found here pending
        have permitted := only.all checked here
        cases phase : found.phase with
        | admitted reply other rest =>
          rw [phase] at permitted pending
          have same : other.b = turn.b := pending
          simp [same] at permitted
        | _ =>
          rw [phase] at pending
          exact pending
      · intro key fetch fetched
        rw [only.fetches key] at fetched
        cases fetched
  | admitted reply turn turns =>
    simp only [orderlyCall, current, Bool.and_eq_true, beq_iff_eq] at checked
    exact fun _ _ partly => absurd checked partly
  | verifying reply units =>
    simp only [orderlyCall, current] at checked
    cases units with
    | nil => trivial
    | cons unit units => cases checked
  | _ => trivial

theorem along_orderly [Inhabited Hash] [DecidableEq Hash]
    {file : Bytes} (checked : Along mount.netStep
      (fun net event => mount.orderlyAmong ids net event = true)
      (mount.opened file mtimeNs) events) :
    Along mount.netStep (mount.Orderly view Set.univ) (mount.opened file mtimeNs) events := by
  refine checked.of_invariant ?_ ?_ (opened_writesOnly mount ids file mtimeNs)
  · intro net event next only checked taken
    simp only [orderlyAmong, Bool.and_eq_true, decide_eq_true_eq] at checked
    exact only.step checked.1.1 taken
  · intro net event only checked
    simp only [orderlyAmong, Bool.and_eq_true, decide_eq_true_eq] at checked
    refine ⟨checked.1.2, ?_⟩
    cases event with
    | write id mtimeNs =>
      intro call here
      simp only [here, all_some] at checked
      exact orderly_of_call view only checked.2
    | issueWrite => trivial
    | issueRead | read | prefetch | fetch => exact checked.1.1.elim

end Checks

/-- Two writes of one page reach the file in one order and are numbered in the
other. -/
def renumberedRun : List NetEvent :=
  [.issueWrite 1 0 (Padded.replicate 4096 8),
    .issueWrite 2 0 (Padded.replicate 4096 9), .write 1 0, .write 2 0, .write 2 0, .write 1 0] ++
  List.replicate 7 (.write 2 0) ++ List.replicate 7 (.write 1 0)

theorem renumbered_not_settles :
    ¬(mountOf .mem (id : Bytes → Bytes) onePage classicFeatures).Settles fun _ _ => True := by
  intro claim
  have observed : (run (classicMount .mem).netStep (opened (classicMount .mem) (blank 0) 0)
      renumberedRun).map (fun final =>
        (final.writesReturned [1, 2],
          ((classicMount .mem).store.get final.session.bucket 0 4096).map
            fun data => (data.len, data.get 0), final.session.file.get 0)) =
      some (true, some (4096, 8), 9) := by decide +kernel
  obtain ⟨final, reached, seen⟩ := map_eq_some_iff.mp observed
  simp only [Prod.mk.injEq] at seen
  obtain ⟨returned, answered, held⟩ := seen
  obtain ⟨data, found, pair⟩ := map_eq_some_iff.mp answered
  simp only [Prod.mk.injEq] at pair
  have among : ∀ event ∈ renumberedRun, event.WritesAmong [1, 2] := by
    decide
  have answers := claim _ 0 renumberedRun final (Along.of_events fun _ _ => trivial) reached
    (run_writesAmong among reached returned)
  have same := answers.get 0 4096 data (by decide) found 0 (by omega)
  rw [pair.2, Nat.zero_mul, held] at same
  exact absurd same (by decide)

/-- The same writes, numbered in the order of the file.  The later one finishes
first, and the table refuses the earlier one. -/
def refusedRun : List NetEvent :=
  [.issueWrite 1 0 (Padded.replicate 4096 8), .issueWrite 2 0 (Padded.replicate 4096 9)] ++
  List.replicate 2 (.write 1 0) ++ List.replicate 9 (.write 2 0) ++
  List.replicate 6 (.write 1 0)

theorem refusedRun_settles : ∃ final, run
        (mountOf .mem (id : Bytes → Bytes) onePage classicFeatures).netStep
        (Mount.opened (mountOf .mem (id : Bytes → Bytes) onePage
          classicFeatures) (Padded.blank 0) 0) refusedRun = some final ∧
      final.Quiescent ∧ Answers (mountOf .mem (id : Bytes → Bytes) onePage
        classicFeatures).store id onePage final.session.file final.session.bucket := by
  have observed : (run (classicMount .mem).netStep (opened (classicMount .mem) (blank 0) 0)
      refusedRun).map (fun final => final.writesReturned [1, 2]) = some true := by decide +kernel
  obtain ⟨final, reached, returned⟩ := map_eq_some_iff.mp observed
  have among : ∀ event ∈ refusedRun, event.WritesAmong [1, 2] := by
    decide
  have quiescent := run_writesAmong among reached returned
  have checked : Along (classicMount .mem).netStep (fun net event => orderlyAmong
        (classicMount .mem) [1, 2] net event = true)
      (opened (classicMount .mem) (blank 0) 0) refusedRun := by
    decide +kernel
  exact ⟨final, reached, quiescent, settles_of_orderly .mem (fun _ _ _ _ same => same) onePage
    classicFeatures rfl rfl _ 0 refusedRun final (along_orderly _ checked) reached quiescent⟩

end Cornus.Wire
