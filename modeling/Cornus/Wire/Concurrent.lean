import Cornus.Wire.BlockProxy
import Cornus.Wire.Caller

/-!
# Concurrent requests on one file

Any number of `ReadAt` and `WriteAt` calls on one open file and any number of
background prefetches are in progress at the proxy, and their handlers at the
caller.  Each access to shared state is one
step: to the caller's file, to its sequence number, to the proxy's size
registry, to its sequence table and to its store.  Replies are delivered in any
order.  A call that is not interrupted computes what the sequential model
computes.
-/

namespace Cornus.Wire

open BlockCache Lib Function List Option Bool Mount

/-! ## Write calls -/

/-- One turn of an apply loop: a block, with its digest in the classic
scheme. -/
structure Turn (Hash : Type) where
  b : Nat
  hash : Option Hash

/-- Where a `WriteAt` call is. -/
inductive WritePhase (Hash : Type) where
  | sent
  | stored
  | numbered (seq : Nat)
  | replied (reply : WriteReply Hash)
  | delivered (reply : WriteReply Hash)
  | applying (reply : WriteReply Hash) (turns : List (Turn Hash))
  | admitted (reply : WriteReply Hash) (turn : Turn Hash) (turns : List (Turn Hash))
  | verifying (reply : WriteReply Hash) (units : List (UnitHash Hash))
  | dropping (reply : WriteReply Hash) (b : Nat) (units : List (UnitHash Hash))
  | returned

/-- A `WriteAt` under way. -/
structure WriteCall (Hash : Type) where
  off : Nat
  data : Bytes
  phase : WritePhase Hash

/-! ## Fetches -/

/-- What a fetch asks the caller for. -/
inductive FetchKey where
  | block (b : Nat)
  | range (b subOff subLen : Nat)
deriving DecidableEq

inductive FetchPhase (Hash : Type) where
  | serving (stage : ReadStage Hash)
  | delivered (reply : ReadReply Hash)
  | admitted (seq : Nat) (hash : Hash) (data : Bytes)

namespace FetchKey

def b : FetchKey → Nat
  | .block b => b
  | .range b _ _ => b

def request : FetchKey → ReadRequest
  | .block b => .block b 1
  | .range b subOff subLen => .range b subOff subLen

/-- What the callers of a fetch are given: a range is cut to its length. -/
def trim (key : FetchKey) (data : Bytes) : Bytes :=
  match key with
  | .block _ => data
  | .range _ _ subLen => data.resize (min subLen data.len)

end FetchKey

def ReadReply.content {Hash : Type} [Inhabited Hash] : ReadReply Hash → Option (Nat × Hash × Bytes)
  | .frames [] => some (0, default, Padded.blank 0)
  | .frames (frame :: _) => some (frame.seq, frame.hash, frame.data)
  | .range seq data => some (seq, default, data)
  | .einval => none

/-! ## Read calls -/

/-- Where a `ReadAt` call is. -/
inductive ReadPhase where
  | seeking
  | waiting (key : FetchKey) (base : Nat)
  | fetched (base : Nat) (data : Option Bytes)
  | returned (result : ReadResult)

/-- A `ReadAt` under way. -/
structure ReadCall where
  size : Nat
  stop : Nat
  length : Nat
  pos : Nat
  out : Bytes
  phase : ReadPhase

namespace ReadCall

variable (call : ReadCall)

def answer (result : ReadResult) : ReadCall :=
  { call with phase := .returned result }

def finish : ReadCall :=
  call.answer
    { data := call.out
      err := if call.out.len < call.length then some .eof else none }

def fail : ReadCall :=
  call.answer
    (if 0 < call.out.len then { data := call.out, err := none }
    else { data := Padded.blank 0, err := some .einval })

/-- Copy from the bytes at hand, whose first one is at `base`. -/
def copy (base : Nat) (data : Bytes) : ReadCall :=
  let inData := call.pos - base
  if data.len ≤ inData then call.finish
  else
    let n := min (call.stop - call.pos) (data.len - inData)
    if n = 0 then call.finish
    else
      { call with
        pos := call.pos + n
        out := call.out.splice call.out.len (data.slice inData n)
        phase := .seeking }

end ReadCall

/-! ## The network -/

/-- The proxy, the caller and every call between them. -/
structure Net (Hash Entry : Type) where
  session : Session Entry
  writes : Nat → Option (WriteCall Hash)
  reads : Nat → Option ReadCall
  fetches : FetchKey → Option (FetchPhase Hash)

/-- A new call, a turn of `prefetchRange` over any range, or the next step of a
call or fetch in progress. -/
inductive NetEvent where
  | issueWrite (id off : Nat) (data : Bytes)
  | issueRead (id off length : Nat)
  | write (id mtimeNs : Nat)
  | read (id : Nat)
  | prefetch (size stop pos : Nat)
  | fetch (key : FetchKey)

namespace Net

variable {Hash Entry : Type} (net : Net Hash Entry) (id : Nat) (call : WriteCall Hash)

def setWrite : Net Hash Entry :=
  { net with writes := update net.writes id (some call) }

/-- A write call goes on to a phase, leaving a session. -/
abbrev move (session : Session Entry) (phase : WritePhase Hash) : Net Hash Entry :=
  setWrite { net with session } id { call with phase }

theorem writes_setWrite {net : Net Hash Entry} {id : Nat} {call : WriteCall Hash}
    (there : (net.setWrite id call).writes other = some found) :
    other = id ∧ call = found ∨ other ≠ id ∧ net.writes other = some found :=
  update_eq_some_iff.mp there

def setRead (call : ReadCall) : Net Hash Entry :=
  { net with reads := update net.reads id (some call) }

variable (key : FetchKey)

def setFetch (phase : Option (FetchPhase Hash)) : Net Hash Entry :=
  { net with fetches := update net.fetches key phase }

/-- Join the fetch of `key`, starting it when none is in progress. -/
def joinFetch : Net Hash Entry :=
  if (net.fetches key).isSome then net
  else net.setFetch key (some (.serving .arrived))

/-- End a fetch and hand its outcome to every call that waits for it. -/
def endFetch (outcome : Option Bytes) : Net Hash Entry :=
  { net.setFetch key none with
    reads := fun id => (net.reads id).map fun call =>
      match call.phase with
      | .waiting awaited base =>
        if awaited = key then
          { call with phase := .fetched base (outcome.map key.trim) }
        else call
      | _ => call }

/-- No call is under way. -/
structure Quiescent : Prop where
  writes : ∀ id call, net.writes id = some call → call.phase = .returned
  reads : ∀ id call, net.reads id = some call → ∃ result, call.phase = .returned result
  fetches : ∀ key, net.fetches key = none

end Net

section Steps

variable {Hash Entry : Type}

namespace Mount

variable (mount : Mount Hash Entry)

/-- The turns of the apply loop of the negotiated scheme. -/
def turns (off : Nat) (reply : WriteReply Hash) : List (Turn Hash) :=
  if mount.features.deferHash || mount.features.subBlockHash then
    (writtenBlocks mount.chunk off reply.n).map fun b =>
      { b, hash := none }
  else
    reply.units.map fun unit =>
      { b := unit.blockIdx, hash := some unit.hash }

def checks (reply : WriteReply Hash) : List (UnitHash Hash) :=
  if mount.features.deferHash then []
  else if mount.features.subBlockHash then reply.units
  else []

def storeTurn (bucket : Option Entry)
    (off : Nat) (data : Bytes) (reply : WriteReply Hash) (turn : Turn Hash) : Option Entry :=
  let part := blockPart mount.chunk data off reply.n reply.size turn.b
  match turn.hash with
  | some hash => mount.store.writeChunk bucket turn.b part.chunkOff part.data
      part.chunkLen hash
  | none => mount.store.writeThrough bucket turn.b part.chunkOff part.data
      part.chunkLen

def writeReply (file : Bytes) (off : Nat) (data : Bytes) (seq mtimeNs : Nat) : WriteReply Hash :=
  { n := data.len
    size := file.len
    mtimeNs
    seq
    units := replyUnits mount.hashChunk mount.chunk mount.features file data
      off data.len file.len }

variable [DecidableEq Hash]

/-- The next step of a write. -/
def stepWrite (mount : Mount Hash Entry) (session : Session Entry)
    (off : Nat) (data : Bytes) (mtimeNs : Nat) : WritePhase Hash → Session Entry × WritePhase Hash
  | .sent => ({ session with file := fileWriteAt session.file off data }, .stored)
  | .stored => ({ session with seq := session.seq + 1 }, .numbered (session.seq + 1))
  | .numbered seq =>
    ({ session with
        dirty :=
          if mount.features.deferHash then
            markDirty mount.chunk mount.features session.dirty off data.len
              session.file.len
          else session.dirty },
      .replied (mount.writeReply session.file off data seq mtimeNs))
  | .replied reply => (session, .delivered reply)
  | .delivered reply => ({ session with size := reply.size },
      .applying reply (mount.turns off reply))
  | .applying reply [] => (session, .verifying reply (mount.checks reply))
  | .applying reply (turn :: turns) =>
    if misses mount.chunk off reply.n turn.b then
      (session, .applying reply turns)
    else if admits session.last turn.b reply.seq true then
      ({ session with last := admitSeq session.last turn.b reply.seq true },
        .admitted reply turn turns)
    else (session, .applying reply turns)
  | .admitted reply turn turns =>
    ({ session with bucket := mount.storeTurn session.bucket off data reply turn },
      .applying reply turns)
  | .verifying reply [] =>
    ({ session with
        bucket := mount.store.setHint session.bucket reply.size reply.mtimeNs },
      .returned)
  | .verifying reply (unit :: units) =>
    match mount.store.hashRange session.bucket unit.blockIdx unit.subOff unit.subLen with
    | some hash =>
      if hash = unit.hash then (session, .verifying reply units)
      else (session, .dropping reply unit.blockIdx units)
    | none => (session, .verifying reply units)
  | .dropping reply b units =>
    ({ session with bucket := mount.store.drop session.bucket b }, .verifying reply units)
  | .returned => (session, .returned)

variable [Inhabited Hash] (mount : Mount Hash Entry)

/-- The next step of a fetch: it goes on, or ends with an outcome. -/
def stepFetch (session : Session Entry) (key : FetchKey) : FetchPhase Hash →
    Session Entry × (FetchPhase Hash ⊕ Option Bytes)
  | .serving (.replied reply) => (session, .inl (.delivered reply))
  | .serving stage => (session, .inl (.serving
      (stage.next mount.hashChunk mount.chunk session.file session.seq key.request)))
  | .delivered reply =>
    match reply.content with
    | none => (session, .inr none)
    | some (seq, hash, data) =>
      if admits session.last key.b seq false then
        ({ session with last := admitSeq session.last key.b seq false },
          .inl (.admitted seq hash data))
      else (session, .inr (some data))
  | .admitted _ hash data =>
    ({ session with
        bucket :=
          match key with
          | .block b => mount.store.putHashed session.bucket b data hash
          | .range b subOff _ =>
            mount.store.putSub session.bucket b subOff data },
      .inr (some data))

/-- The cache lookup of one turn of `ReadAt`: the key to fetch on a miss, the
offset of the first byte, and the bytes on a hit. -/
def lookup (bucket : Option Entry) (size stop pos : Nat) : FetchKey × Nat × Option Bytes :=
  let b := pos / mount.chunk.bytes
  let blockStart := b * mount.chunk.bytes
  if mount.features.subBlockFill then
    let (subLo, subLen) := touchedRange mount.chunk size stop pos
    (.range b subLo subLen, blockStart + subLo,
      (mount.store.getSub bucket b subLo subLen).filter fun buf =>
        buf.len == subLen)
  else
    let chunkLen := blockValidEnd mount.chunk b size - blockStart
    (.block b, blockStart, (mount.store.get bucket b chunkLen).filter fun buf =>
        buf.len == chunkLen)

variable (net : Net Hash Entry)

/-- The next step of a read. -/
def stepRead (id : Nat) (call : ReadCall) : Option (Net Hash Entry) :=
  match call.phase with
  | .seeking =>
    if call.pos < call.stop then
      match mount.lookup net.session.bucket call.size call.stop call.pos with
      | (_, base, some data) => some (net.setRead id (call.copy base data))
      | (key, base, none) => some ((net.joinFetch key).setRead id
          { call with phase := .waiting key base })
    else some (net.setRead id call.finish)
  | .fetched base (some data) => some (net.setRead id (call.copy base data))
  | .fetched _ none => some (net.setRead id call.fail)
  | .waiting _ _ => none
  | .returned _ => none

/-- The state after an event. -/
def netStep : NetEvent → Option (Net Hash Entry)
  | .issueWrite id off data =>
    if (net.writes id).isSome then none
    else some (net.setWrite id { off, data, phase := .sent })
  | .issueRead id off length =>
    if (net.reads id).isSome then none
    else
      let size := net.session.size
      let call : ReadCall :=
        { size, stop := (min (int64 (off + length)) size).toNat, length, pos := off,
          out := Padded.blank 0, phase := .seeking }
      some (net.setRead id (if size ≤ off then
          call.answer { data := Padded.blank 0, err := some .eof }
        else call))
  | .write id mtimeNs => (net.writes id).map fun call =>
    let (session, phase) :=
      mount.stepWrite net.session call.off call.data mtimeNs call.phase
    Net.setWrite { net with session } id { call with phase }
  | .read id => (net.reads id).bind (mount.stepRead net id)
  | .prefetch size stop pos =>
    match mount.lookup net.session.bucket size stop pos with
    | (_, _, some _) => some net
    | (key, _, none) => some (net.joinFetch key)
  | .fetch key => (net.fetches key).map fun phase =>
    match mount.stepFetch net.session key phase with
    | (session, .inl phase) =>
      Net.setFetch { net with session } key (some phase)
    | (session, .inr outcome) =>
      Net.endFetch { net with session } key outcome

/-- The state after the file is opened. -/
def opened (file : Bytes) (mtimeNs : Nat) : Net Hash Entry :=
  { session := mount.openFile
      (@Endpoint.fresh Entry file).session mtimeNs
    writes := fun _ => none
    reads := fun _ => none
    fetches := fun _ => none }

end Mount

end Steps

/-- The first offset past what an event asks for. -/
def NetEvent.reach : NetEvent → Nat
  | .issueWrite _ off data => off + data.len
  | .issueRead _ off length => off + length
  | .prefetch size stop pos => max size (max stop pos)
  | _ => 0

/-! ## What the steps leave alone -/

section Frames

variable {Hash Entry : Type} {mount : Mount Hash Entry}

theorem joinFetch_keeps (net : Net Hash Entry) (key : FetchKey) :
    (net.joinFetch key).session = net.session ∧ (net.joinFetch key).writes = net.writes := by
  unfold Net.joinFetch
  split_ifs
  · exact ⟨rfl, rfl⟩
  · exact ⟨rfl, rfl⟩

theorem stepRead_keeps {next : Net Hash Entry} {id : Nat}
    (taken : mount.stepRead net id call = some next) :
    next.session = net.session ∧ next.writes = net.writes := by
  unfold stepRead at taken
  split at taken
  · split_ifs at taken
    · split at taken
      · cases taken
        exact ⟨rfl, rfl⟩
      · cases taken
        exact joinFetch_keeps net _
    · cases taken
      exact ⟨rfl, rfl⟩
  · cases taken
    exact ⟨rfl, rfl⟩
  · cases taken
    exact ⟨rfl, rfl⟩
  · cases taken
  · cases taken

theorem stepFetch_session [Inhabited Hash] (session : Session Entry)
    (key : FetchKey) (phase : FetchPhase Hash) :
    (mount.stepFetch session key phase).1.file = session.file ∧
      (mount.stepFetch session key phase).1.size = session.size := by
  unfold stepFetch
  split
  · exact ⟨rfl, rfl⟩
  · exact ⟨rfl, rfl⟩
  · split
    · exact ⟨rfl, rfl⟩
    split_ifs
    · exact ⟨rfl, rfl⟩
    · exact ⟨rfl, rfl⟩
  · exact ⟨rfl, rfl⟩

variable (ids : List Nat)

def NetEvent.WritesAmong : NetEvent → Prop
  | .issueWrite id _ _ => id ∈ ids
  | .write id _ => id ∈ ids
  | _ => False

instance (ids : List Nat) : (event : NetEvent) → Decidable (event.WritesAmong ids)
  | .issueWrite id _ _ => inferInstanceAs (Decidable (id ∈ ids))
  | .write id _ => inferInstanceAs (Decidable (id ∈ ids))
  | .issueRead _ _ _ | .read _ | .prefetch _ _ _ | .fetch _ => .isFalse id

variable (net : Net Hash Entry)

structure Net.WritesOnly : Prop where
  writes : ∀ id, id ∉ ids → net.writes id = none
  reads : ∀ id, net.reads id = none
  fetches : ∀ key, net.fetches key = none

def Net.writesReturned : Bool :=
  ids.all fun id =>
    match (net.writes id).map WriteCall.phase with
    | none => true
    | some .returned => true
    | _ => false

variable {ids : List Nat} {net : Net Hash Entry}

theorem Net.WritesOnly.setWrite (only : net.WritesOnly ids) {id : Nat} (mem : id ∈ ids)
    (session : Session Entry) (call : WriteCall Hash) :
    (Net.setWrite { net with session } id call).WritesOnly ids where
  __ := only
  writes := by
    intro other outside
    have ne : other ≠ id := by
      rintro rfl
      exact outside mem
    exact (update_of_ne ne _ _).trans (only.writes other outside)

theorem Net.WritesOnly.quiescent
    (only : net.WritesOnly ids) (returned : net.writesReturned ids = true) : net.Quiescent where
  writes := by
    intro id call here
    by_cases mem : id ∈ ids
    · have mine := all_eq_true.mp returned id mem
      simp only [here, map_some] at mine
      split at mine
      · rename_i absent
        cases absent
      · rename_i phase
        exact some.inj phase
      · cases mine
    · rw [only.writes id mem] at here
      cases here
  reads := by
    intro id call here
    rw [only.reads id] at here
    cases here
  fetches := only.fetches

theorem Net.WritesOnly.step [Inhabited Hash] [DecidableEq Hash] {net next : Net Hash Entry}
    {event : NetEvent}
    (only : net.WritesOnly ids) (among : event.WritesAmong ids)
    (taken : mount.netStep net event = some next) : next.WritesOnly ids := by
  cases event with
  | issueWrite id off data =>
    simp only [netStep, ite_none_left_eq_some, some.injEq] at taken
    obtain ⟨_, rfl⟩ := taken
    exact only.setWrite among net.session _
  | write id mtimeNs =>
    simp only [netStep, map_eq_some_iff] at taken
    obtain ⟨call, _, rfl⟩ := taken
    exact only.setWrite among _ _
  | issueRead | read | prefetch | fetch => exact among.elim

theorem opened_writesOnly (mount : Mount Hash Entry) (ids : List Nat)
    (file : Bytes) (mtimeNs : Nat) : (mount.opened file mtimeNs).WritesOnly ids :=
  ⟨fun _ _ => rfl, fun _ => rfl, fun _ => rfl⟩

theorem run_writesAmong [Inhabited Hash] [DecidableEq Hash]
    (among : ∀ event ∈ events, event.WritesAmong ids)
    (reached : run mount.netStep (mount.opened file mtimeNs) events = some final)
    (returned : final.writesReturned ids = true) : final.Quiescent := by
  suffices only : final.WritesOnly ids from only.quiescent returned
  exact run_invariant (fun _ _ _ only mem taken => only.step mem taken)
    (opened_writesOnly mount ids file mtimeNs) (Along.of_events among)
    reached

end Frames

/-! ## Calls that are not interrupted -/

variable {Hash Entry : Type} [DecidableEq Hash] (mount : Mount Hash Entry) (off : Nat)
  (data : Bytes) (mtimeNs : Nat)

def Mount.writeAlone (state : Session Entry × WritePhase Hash) : Session Entry × WritePhase Hash :=
  mount.stepWrite state.1 off data mtimeNs state.2

variable (reply : WriteReply Hash) (session : Session Entry)

/-- One whole turn: the admission and the store operation. -/
def Mount.applyTurn (turn : Turn Hash) : Session Entry :=
  if misses mount.chunk off reply.n turn.b then session
  else if admits session.last turn.b reply.seq true then
    { session with
      last := admitSeq session.last turn.b reply.seq true
      bucket := mount.storeTurn session.bucket off data reply turn }
  else session

theorem writeAlone_applying (turns : List (Turn Hash)) (session : Session Entry) :
    Reaches (mount.writeAlone off data mtimeNs) (session, .applying reply turns)
      (turns.foldl (mount.applyTurn off data reply) session,
        .verifying reply (mount.checks reply)) := by
  induction turns generalizing session with
  | nil => exact Reaches.head (Reaches.refl _)
  | cons turn turns ih =>
    rw [foldl_cons]
    apply Reaches.trans _ (ih _)
    apply Reaches.head
    by_cases missed : misses mount.chunk off reply.n turn.b = true
    · simp only [writeAlone, stepWrite, applyTurn, missed, if_true]
      exact Reaches.refl _
    · by_cases admitted : admits session.last turn.b reply.seq true = true
      · simp only [writeAlone, stepWrite, applyTurn,
          missed, false_eq_true, if_false, admitted, if_true]
        exact Reaches.head (Reaches.refl _)
      · simp only [writeAlone, stepWrite, applyTurn, missed, false_eq_true, if_false, admitted]
        exact Reaches.refl _

theorem writeAlone_verifying (units : List (UnitHash Hash)) (session : Session Entry) :
    Reaches (mount.writeAlone off data mtimeNs) (session, .verifying reply units) ({ session with
          bucket := mount.store.setHint (units.foldl mount.verifyUnit session.bucket) reply.size
            reply.mtimeNs },
        .returned) := by
  induction units generalizing session with
  | nil => exact Reaches.head (Reaches.refl _)
  | cons unit units ih =>
    rw [foldl_cons]
    apply Reaches.trans _ (ih { session with bucket := mount.verifyUnit session.bucket unit })
    apply Reaches.head
    simp only [writeAlone, stepWrite, verifyUnit]
    cases mount.store.hashRange session.bucket unit.blockIdx unit.subOff unit.subLen with
    | none => exact Reaches.refl _
    | some hash =>
      by_cases same : hash = unit.hash
      · simp only [if_pos same]
        exact Reaches.refl _
      · simp only [if_neg same]
        exact Reaches.head (Reaches.refl _)

theorem foldl_applyTurn (reply : WriteReply Hash) :
    { (mount.turns off reply).foldl (mount.applyTurn off data reply) session with
      bucket := (mount.checks reply).foldl mount.verifyUnit
        ((mount.turns off reply).foldl (mount.applyTurn off data reply) session).bucket } =
      mount.applyScheme session off data reply := by
  unfold turns checks applyScheme
  cases deferred : mount.features.deferHash with
  | true =>
    simp only [Bool.true_or, if_true, foldl_nil, foldl_map]
    rfl
  | false =>
    cases subBlock : mount.features.subBlockHash with
    | true =>
      simp only [Bool.or_true, if_true, false_eq_true, if_false, foldl_map]
      rfl
    | false =>
      simp only [Bool.or_false, false_eq_true, if_false, foldl_nil, foldl_map]
      rfl

/-- A write call that is not interrupted is `WriteAt` of the sequential
model. -/
theorem writeAlone_reaches : Reaches (mount.writeAlone off data mtimeNs) (session, .sent)
      (mount.writeAt session off data mtimeNs, .returned) := by
  let written := (mount.handleWrite session off data mtimeNs).1
  let reply := (mount.handleWrite session off data mtimeNs).2
  have arrives : Reaches (mount.writeAlone off data mtimeNs) (session, .sent)
      ({ written with size := reply.size }, .applying reply (mount.turns off reply)) :=
    .head (.head (.head (.head (.head (.refl _)))))
  have applies := arrives.trans (writeAlone_applying mount off data mtimeNs reply
      (mount.turns off reply) { written with size := reply.size })
  have ends := applies.trans (writeAlone_verifying mount off data mtimeNs
    reply (mount.checks reply) _)
  have scheme := foldl_applyTurn mount off data { written with size := reply.size } reply
  have result : mount.writeAt session off data mtimeNs =
      { mount.applyScheme { written with size := reply.size } off data reply with
        bucket := mount.store.setHint (mount.applyScheme
          { written with size := reply.size } off data reply).bucket
          reply.size reply.mtimeNs } := rfl
  rw [result, ← scheme]
  exact ends

end Cornus.Wire
