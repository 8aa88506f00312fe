import Cornus.BlockCache.Store
import Cornus.Lib.Run

/-!
# The client mux

`blockClient` runs any number of round trips over one connection.  One reader
routes response frames to the calls that wait for them and may read a payload
straight into the buffer of a call; a call can also be completed by a failed
send, by `Close` or by cancellation.  Each critical section, each channel
operation and each read of the connection is one step, and the peer chooses the
frames.  The connection is a yamux stream: closing it ends only its writes, so the
reader may go on after `Close` or a cancellation.
-/

namespace Cornus.Wire

open BlockCache Lib Function List Option Bool Nat

/-! ## State -/

/-- The header of a response frame: its request id, its two flags and the length
of its payload. -/
structure Header where
  reqID : Nat
  (isErr isFinal : Bool)
  plen : Nat

/-- A collected response frame. -/
structure Frame where
  header : Header
  payload : Bytes

/-- What closed the `done` channel of a call. -/
inductive Cause where
  | frame (header : Header)
  | failure

/-- How a round trip failed: by an error frame or with the connection. -/
inductive CallError where
  | errno (code : Nat)
  | broken

/-- Where `roundTrip` is with a call: about to write the request, about to call
`fail` after the write failed, waiting, waiting for the reader to release the
buffer after a cancellation, or back at its caller. -/
inductive CallStage where
  | registered
  | unsent
  | waiting
  | releasing
  | returned
deriving DecidableEq

/-- A call.  `done` and `readDone` record how often the channels were closed. -/
structure Call where
  dst : Option Bytes
  metaLen : Nat
  frames : List Frame
  err : Option CallError
  n : Nat
  (delivered claimed : Bool)
  done : List Cause
  readDone : Nat
  stage : CallStage

/-- Where `readLoop` is: between frames, inside the payload of a frame, at its
second critical section, about to close a `done` channel, or about to call
`fail` after a read error. -/
inductive ReadLoop where
  | idle
  | routed (header : Header) (claim : Option Nat) (got : Bytes)
  | received (header : Header) (claim : Option Nat) (payload : Bytes)
  | closing (id : Nat) (header : Header)
  | broken

/-- The client.  `failing` lists the calls that the body of `fail` still has to
complete while it runs. -/
structure BlockClient where
  (maxFrame nextID : Nat)
  calls : Nat → Option Call
  pending : List Nat
  readErr : Bool
  failing : Option (List Nat)
  (closed closing : Bool)
  reader : ReadLoop

/-- Who calls `fail`. -/
inductive Failer where
  | sender (id : Nat)
  | reader
  | closer

/-- A step of a round trip, of the reader, of `fail` or of `Close`. -/
inductive ClientEvent where
  | register (dst : Option Bytes) (metaLen : Nat)
  | send (id : Nat)
  | sendError (id : Nat)
  | wake (id : Nat)
  | cancel (id : Nat)
  | release (id : Nat)
  | header (header : Header)
  | readError
  | receive (piece : Bytes)
  | payloadEnd
  | route
  | closeDone
  | close
  | fail (failer : Failer)
  | failCall (id : Nat)
  | failEnd

namespace Call

/-- A call as `roundTrip` makes it. -/
def new (dst : Option Bytes) (metaLen : Nat) : Call :=
  { dst, metaLen, frames := [], err := none, n := 0, delivered := false,
    claimed := false, done := [], readDone := 0, stage := .registered }

variable (call : Call) (header : Header)

/-- The frame can be delivered straight into the buffer of the call. -/
def takes : Bool :=
  match call.dst with
  | none => false
  | some dst => !header.isErr && header.isFinal && decide (call.metaLen ≤ header.plen) &&
      decide (header.plen - call.metaLen ≤ dst.len)

/-- The bytes that arrive after the metadata land in the buffer. -/
def fill (got piece : Bytes) : Call :=
  { call with
    dst := call.dst.map fun dst =>
      if got.len < call.metaLen then dst
      else dst.splice (got.len - call.metaLen) piece }

/-- The error of an error frame: four bytes, the highest first. -/
def errno (payload : Bytes) : CallError :=
  if payload.len < 4 then .errno 0
  else .errno ((((payload.get 0).toNat * 256 + (payload.get 1).toNat) * 256 +
    (payload.get 2).toNat) * 256 + (payload.get 3).toNat)

/-- The second critical section of `readLoop`, for a call that is still pending. -/
def collect (direct : Bool) (payload : Bytes) : Call :=
  if header.isErr then { call with err := some (errno payload) }
  else
    { call with
      frames := call.frames ++
        [{ header
           payload :=
             if direct then payload.slice 0 call.metaLen else payload }]
      n := if direct then header.plen - call.metaLen else call.n
      delivered := direct || call.delivered }

end Call

namespace BlockClient

/-- A client after its handshake. -/
def start (maxFrame : Nat) : BlockClient :=
  { maxFrame
    nextID := 0
    calls := fun _ => none
    pending := []
    readErr := false
    failing := none
    closed := false
    closing := false
    reader := .idle }

variable (client : BlockClient)

/-- The call of a request id changes. -/
def setCall (id : Nat) (call : Call) : BlockClient :=
  { client with calls := update client.calls id (some call) }

/-- The reader lets go of the buffer it claimed. -/
def releaseClaim (claim : Option Nat) : BlockClient :=
  match claim with
  | none => client
  | some id =>
    match client.calls id with
    | none => client
    | some call => client.setCall id { call with readDone := call.readDone + 1 }

/-- The party has come to its call of `fail`. -/
def mayFail : Failer → Bool
  | .sender id => ((client.calls id).map Call.stage) == some .unsent
  | .reader =>
    match client.reader with
    | .broken => true
    | _ => false
  | .closer => client.closing

/-- One step.  The body of `fail` runs once, and later callers wait for it. -/
def step : ClientEvent → Option BlockClient
  | .register dst metaLen =>
    let id := client.nextID + 1
    let call := Call.new dst metaLen
    if client.readErr then
      some { client.setCall id { call with stage := .returned } with nextID := id }
    else
      some { client.setCall id call with nextID := id, pending := id :: client.pending }
  | .send id => (client.calls id).bind fun call =>
    if call.stage = .registered then
      some (client.setCall id { call with stage := .waiting })
    else none
  | .sendError id => (client.calls id).bind fun call =>
    if call.stage = .registered then
      some { client.setCall id { call with stage := .unsent } with
        pending := client.pending.erase id }
    else none
  | .wake id => (client.calls id).bind fun call =>
    if call.stage = .waiting ∧ (call.done ≠ [] ∨ client.closed) ∨
        call.stage = .unsent ∧ client.closed then
      some (client.setCall id { call with stage := .returned })
    else none
  | .cancel id => (client.calls id).bind fun call =>
    if call.stage = .waiting then
      if call.claimed then
        some { client.setCall id { call with stage := .releasing } with
          pending := client.pending.erase id }
      else
        some { client.setCall id { call with stage := .returned } with
          pending := client.pending.erase id }
    else none
  | .release id => (client.calls id).bind fun call =>
    if call.stage = .releasing ∧ 0 < call.readDone then
      some (client.setCall id { call with stage := .returned })
    else none
  | .header header =>
    match client.reader with
    | .idle =>
      if client.maxFrame < header.plen then
        some { client with reader := .broken }
      else
        let routed := ReadLoop.routed header none (Padded.blank 0)
        if header.reqID ∈ client.pending then
          (client.calls header.reqID).map fun call =>
            if call.takes header then
              { client.setCall header.reqID { call with claimed := true } with
                reader := .routed header (some header.reqID) (Padded.blank 0) }
            else { client with reader := routed }
        else some { client with reader := routed }
    | _ => none
  | .readError =>
    match client.reader with
    | .idle => some { client with reader := .broken }
    | .routed _ claim _ =>
      some { client.releaseClaim claim with reader := .broken }
    | _ => none
  | .receive piece =>
    match client.reader with
    | .routed header claim got =>
      let read := ReadLoop.routed header claim (got.splice got.len piece)
      if header.plen < got.len + piece.len then none
      else
        match claim with
        | none => some { client with reader := read }
        | some id => (client.calls id).bind fun call =>
          if got.len < call.metaLen ∧ call.metaLen < got.len + piece.len then none
          else some { client.setCall id (call.fill got piece) with reader := read }
    | _ => none
  | .payloadEnd =>
    match client.reader with
    | .routed header claim got =>
      if got.len = header.plen then
        some { client.releaseClaim claim with reader := .received header claim got }
      else none
    | _ => none
  | .route =>
    match client.reader with
    | .received header claim payload =>
      if header.reqID ∈ client.pending then
        (client.calls header.reqID).map fun call =>
          let collected := client.setCall header.reqID (call.collect header claim.isSome payload)
          if header.isErr || header.isFinal then
            { collected with
              pending := client.pending.erase header.reqID
              reader := .closing header.reqID header }
          else { collected with reader := .idle }
      else some { client with reader := .idle }
    | _ => none
  | .closeDone =>
    match client.reader with
    | .closing id header => (client.calls id).map fun call =>
      { client.setCall id { call with done := .frame header :: call.done } with
        reader := .idle }
    | _ => none
  | .close => some { client with closing := true }
  | .fail failer =>
    if client.mayFail failer ∧ client.failing = none ∧ client.closed = false then
      some { client with readErr := true, failing := some client.pending, pending := [] }
    else none
  | .failCall id =>
    match client.failing with
    | none => none
    | some ids =>
      if id ∈ ids then
        (client.calls id).map fun call =>
          { client.setCall id { call with err := some .broken, done := .failure :: call.done } with
            failing := some (ids.erase id) }
      else none
  | .failEnd =>
    match client.failing with
    | some [] => some { client with failing := none, closed := true }
    | _ => none

end BlockClient

/-! ## Claims and completions -/

/-- The call whose buffer the reader is filling. -/
def ReadLoop.claim : ReadLoop → Option Nat
  | .routed _ claim _ => claim
  | _ => none

/-- The reader is working on a frame it claimed the buffer of `id` for, or has
stopped. -/
def ReadLoop.Engaged (id : Nat) : ReadLoop → Prop
  | .routed _ claim _ => claim = some id
  | .received _ claim _ => claim = some id
  | .broken => True
  | _ => False

/-- The reader is about to close the `done` channel of `id`. -/
def ReadLoop.owes (id : Nat) : ReadLoop → Nat
  | .closing other _ => if other = id then 1 else 0
  | _ => 0

/-- A claim is on the call of the frame's id, which is final and no error. -/
def ReadLoop.Knows : ReadLoop → Prop
  | .routed header claim _ => ∀ id, claim = some id →
      header.reqID = id ∧ header.isFinal = true ∧ header.isErr = false
  | .received header claim _ => ∀ id, claim = some id →
      header.reqID = id ∧ header.isFinal = true ∧ header.isErr = false
  | .closing id header => header.reqID = id
  | _ => True

namespace BlockClient

variable (client : BlockClient)

/-- How many parties are going to close the `done` channel of `id`. -/
def owed (id : Nat) : Nat :=
  client.pending.count id + (client.failing.getD []).count id + client.reader.owes id

/-- The state of one call agrees with what the client owes it. -/
structure Consistent (id : Nat) (call : Call) : Prop where
  owed : client.owed id + call.done.length ≤ 1
  causes : ∀ header, Cause.frame header ∈ call.done → header.reqID = id
  frames : ∀ frame ∈ call.frames, frame.header.reqID = id ∧ frame.header.isErr = false
  live : id ∈ client.pending → call.stage = .registered ∨ call.stage = .waiting
  releases : (if client.reader.claim = some id then 1 else 0) + call.readDone ≤ 1
  unclaimed : call.claimed = false → call.readDone = 0 ∧ client.reader.claim ≠ some id
  claimed : id ∈ client.pending → call.claimed = true → client.reader.Engaged id

/-- The books of the client: every channel is closed at most once, and by whom
it is owed. -/
structure Books : Prop where
  fresh : ∀ id, client.nextID < id → client.calls id = none ∧
    client.owed id = 0 ∧ client.reader.claim ≠ some id
  calls : ∀ id call, client.calls id = some call → client.Consistent id call
  ended : client.readErr = true → client.pending = []
  halted : client.failing ≠ none ∨ client.closed = true → client.readErr = true
  reader : client.reader.Knows

/-- The step to `next` takes on nothing for `id`. -/
structure Eases (next : BlockClient) (id : Nat) : Prop where
  owed : next.owed id ≤ client.owed id
  pending : id ∈ next.pending → id ∈ client.pending
  claim : next.reader.claim = some id → client.reader.claim = some id
  holds : client.reader.Engaged id → id ∈ next.pending → next.reader.Engaged id

variable {client next : BlockClient} {id : Nat}

section

variable (consistent : client.Consistent id call)
include consistent

theorem Consistent.not_mem_erase : id ∉ client.pending.erase id := by
  intro mem
  have once := consistent.owed
  have counted := count_pos_iff.mpr mem
  rw [count_erase_self] at counted
  simp only [BlockClient.owed] at once
  omega

theorem Consistent.of_eases (eases : client.Eases next id) : next.Consistent id call where
  __ := consistent
  owed := Nat.le_trans (Nat.add_le_add_right eases.owed _) consistent.owed
  live := fun mem => consistent.live (eases.pending mem)
  releases := by
    have before := consistent.releases
    split_ifs with claims
    · rwa [if_pos (eases.claim claims)] at before
    · omega
  unclaimed := by
    intro free
    obtain ⟨never, idle⟩ := consistent.unclaimed free
    exact ⟨never, fun claims => idle (eases.claim claims)⟩
  claimed := fun mem taken =>
    eases.holds (consistent.claimed (eases.pending mem) taken) mem

end

section

variable (books : client.Books) (nextID : next.nextID = client.nextID)
  (ended : next.readErr = true → next.pending = [])
  (halted : next.failing ≠ none ∨ next.closed = true → next.readErr = true)
  (knows : next.reader.Knows)
include books nextID ended halted knows

theorem Books.of_call {new : Call} (known : (client.calls id).isSome)
    (calls : next.calls = update client.calls id (some new)) (mine : next.Consistent id new)
    (eases : ∀ other, other ≠ id → client.Eases next other) : next.Books where
  fresh := by
    intro other beyond
    rw [nextID] at beyond
    obtain ⟨absent, unowed, unclaimed⟩ := books.fresh other beyond
    have ne : other ≠ id := by
      rintro rfl
      rw [absent] at known
      cases known
    refine ⟨?_, ?_, ?_⟩
    · rw [calls, update_of_ne ne, absent]
    · have bound := (eases other ne).owed
      omega
    · exact fun claims => unclaimed ((eases other ne).claim claims)
  calls := by
    intro other found here
    rw [calls] at here
    obtain ⟨rfl, rfl⟩ | ⟨same, here⟩ := update_eq_some_iff.mp here
    · exact mine
    · exact (books.calls other found here).of_eases (eases other same)
  ended
  halted
  reader := knows

theorem Books.of_eases (calls : next.calls = client.calls)
    (eases : ∀ id, client.Eases next id) : next.Books where
  fresh := by
    intro id beyond
    rw [nextID] at beyond
    obtain ⟨absent, unowed, unclaimed⟩ := books.fresh id beyond
    have bound := (eases id).owed
    exact ⟨by rw [calls, absent], by omega, fun claims => unclaimed ((eases id).claim claims)⟩
  calls := by
    intro id call here
    rw [calls] at here
    exact (books.calls id call here).of_eases (eases id)
  ended
  halted
  reader := knows

end

/-! ### Steps of a round trip -/

section RoundTrip

variable {id : Nat} {call : Call} {stage : CallStage} {dst : Option Bytes} {metaLen : Nat}

theorem consistent_new (owed : client.owed id ≤ 1)
    (live : id ∈ client.pending → stage = .registered) (unclaimed : client.reader.claim ≠ some id) :
    client.Consistent id { Call.new dst metaLen with stage } where
  owed
  causes := fun _ mem => by cases mem
  frames := fun _ mem => by cases mem
  live := fun mem => .inl (live mem)
  releases := by
    rw [if_neg unclaimed]
    exact zero_le _
  unclaimed := fun _ => ⟨rfl, unclaimed⟩
  claimed := fun _ taken => by cases taken

theorem Books.add (books : client.Books)
    (calls : next.calls = update client.calls (client.nextID + 1)
      (some { Call.new dst metaLen with stage }))
    (nextID : next.nextID = client.nextID + 1) (failing : next.failing = client.failing)
    (reader : next.reader = client.reader)
    (pending : next.pending = client.pending ∨ stage = .registered ∧ client.readErr = false ∧
        next.pending = (client.nextID + 1) :: client.pending)
    (readErr : next.readErr = client.readErr) (closed : next.closed = client.closed) :
    next.Books := by
  obtain ⟨absent, unowed, unclaimed⟩ := books.fresh (client.nextID + 1) (lt_succ_self _)
  have others : ∀ other, other ≠ client.nextID + 1 → next.owed other = client.owed other ∧
        (other ∈ next.pending → other ∈ client.pending) := by
    intro other ne
    simp only [BlockClient.owed, failing, reader]
    rcases pending with same | ⟨_, _, added⟩
    · rw [same]
      exact ⟨rfl, fun mem => mem⟩
    · rw [added, count_cons_of_ne (Ne.symm ne)]
      refine ⟨rfl, fun mem => ?_⟩
      exact (mem_cons.mp mem).resolve_left ne
  constructor
  · intro other beyond
    rw [nextID] at beyond
    have ne : other ≠ client.nextID + 1 := by omega
    obtain ⟨none, zero, free⟩ := books.fresh other (by omega)
    refine ⟨?_, (others other ne).1.trans zero, reader ▸ free⟩
    rw [calls, update_of_ne ne, none]
  · intro other found here
    rw [calls] at here
    obtain ⟨rfl, rfl⟩ | ⟨same, here⟩ := update_eq_some_iff.mp here
    · simp only [BlockClient.owed] at unowed
      apply consistent_new
      · simp only [BlockClient.owed, failing, reader]
        rcases pending with same | ⟨_, _, added⟩
        · rw [same]
          omega
        · rw [added, count_cons_self]
          omega
      · intro mem
        rcases pending with same | ⟨isNew, _, _⟩
        · rw [same] at mem
          have counted := count_pos_iff.mpr mem
          omega
        · exact isNew
      · exact reader ▸ unclaimed
    · obtain ⟨owed, mem⟩ := others other same
      exact (books.calls other found here).of_eases
        ⟨Nat.le_of_eq owed, mem, fun claims => reader ▸ claims, fun holds _ => reader ▸ holds⟩
  · rw [readErr]
    intro broken
    rcases pending with same | ⟨_, sound, _⟩
    · exact same.trans (books.ended broken)
    · rw [sound] at broken
      cases broken
  · rw [failing, closed, readErr]
    exact books.halted
  · exact reader ▸ books.reader

section

variable (books : client.Books) (here : client.calls id = some call)
include books here

theorem Books.setStage (live : id ∈ client.pending → stage = .registered ∨ stage = .waiting) :
    (client.setCall id { call with stage }).Books := by
  refine books.of_call rfl books.ended books.halted books.reader (here ▸ rfl) rfl
    { books.calls id call here with live } fun _ _ => ?_
  exact ⟨Nat.le_refl _, fun mem => mem, fun claims => claims, fun holds _ => holds⟩

theorem Books.abandon (stage : CallStage) :
    { client.setCall id { call with stage } with
      pending := client.pending.erase id }.Books := by
  have before := books.calls id call here
  have once := before.owed
  have gone := before.not_mem_erase
  refine books.of_call rfl ?_ books.halted books.reader (here ▸ rfl) rfl ?_ fun other ne =>
      ⟨?_, fun mem => mem_of_mem_erase mem, fun claims => claims, fun holds _ => holds⟩
  · intro broken
    have empty := books.ended broken
    simp only [empty, erase_nil]
  · refine ⟨?_, before.causes, before.frames,
      fun mem => absurd mem gone, before.releases, before.unclaimed,
      fun mem => absurd mem gone⟩
    simp only [BlockClient.owed, setCall, count_erase_self] at once ⊢
    omega
  · simp only [BlockClient.owed, setCall, count_erase_of_ne ne]
    exact Nat.le_refl _

theorem Books.wake (ready : call.stage = .waiting ∧ (call.done ≠ [] ∨ client.closed) ∨
      call.stage = .unsent ∧ client.closed) :
    (client.setCall id { call with stage := .returned }).Books := by
  apply books.setStage here
  intro mem
  have once := (books.calls id call here).owed
  have counted := count_pos_iff.mpr mem
  simp only [BlockClient.owed] at once
  rcases ready with ⟨_, closings | ended⟩ | ⟨_, ended⟩
  · have some_ := length_pos_iff.mpr closings
    omega
  · rw [books.ended (books.halted (.inr ended))] at mem
    cases mem
  · rw [books.ended (books.halted (.inr ended))] at mem
    cases mem

end

end RoundTrip

/-! ### Steps of `fail` -/

theorem Books.fail (books : client.Books) (first : client.failing = none) : { client with
      readErr := true
      failing := some client.pending
      pending := [] }.Books := by
  refine books.of_eases rfl (fun _ => rfl) (fun _ => rfl) books.reader rfl
    fun id => ⟨?_, fun mem => (by cases mem), fun claims => claims, fun _ mem => (by cases mem)⟩
  simp only [BlockClient.owed, first, getD_some, getD_none, count_nil]
  omega

theorem Books.failCall (books : client.Books) (running : client.failing = some ids)
    (listed : id ∈ ids) (here : client.calls id = some call) : { client.setCall id { call with
          err := some .broken
          done := .failure :: call.done } with
      failing := some (ids.erase id) }.Books := by
  have before := books.calls id call here
  have once := before.owed
  have counted := count_pos_iff.mpr listed
  simp only [BlockClient.owed, running, getD_some] at once
  refine books.of_call rfl books.ended ?_ books.reader (here ▸ rfl) rfl ?_
    fun other ne => ⟨?_, fun mem => mem, fun claims => claims, fun holds _ => holds⟩
  · intro _
    apply books.halted
    rw [running]
    exact .inl (some_ne_none _)
  · refine { before with owed := ?_, causes := ?_ }
    · simp only [BlockClient.owed, setCall, getD_some, count_erase_self, length_cons]
      omega
    · intro header mem
      rcases mem_cons.mp mem with same | earlier
      · cases same
      · exact before.causes header earlier
  · simp only [BlockClient.owed, setCall, running, getD_some, count_erase_of_ne ne]
    exact Nat.le_refl _

theorem Books.failEnd (books : client.Books) (running : client.failing = some []) : { client with
      failing := none
      closed := true }.Books := by
  refine books.of_eases rfl books.ended ?_ books.reader rfl
    fun id => ⟨?_, fun mem => mem, fun claims => claims, fun holds _ => holds⟩
  · intro _
    apply books.halted
    rw [running]
    exact .inl (some_ne_none _)
  · simp only [BlockClient.owed, getD_none, count_nil]
    omega

/-! ### Steps of the reader -/

/-- What routing a frame to its call leaves. -/
abbrev collected (client : BlockClient) (header : Header) (claim : Option Nat) (payload : Bytes)
    (call : Call) : BlockClient :=
  if header.isErr || header.isFinal then
    { client.setCall header.reqID (call.collect header claim.isSome payload) with
      pending := client.pending.erase header.reqID, reader := .closing header.reqID header }
  else
    { client.setCall header.reqID (call.collect header claim.isSome payload) with
      reader := .idle }

section Reader

theorem releaseClaim_cases (client : BlockClient) (claim : Option Nat) :
    client.releaseClaim claim = client ∨ ∃ id call, claim = some id ∧ client.calls id = some call ∧
      client.releaseClaim claim = client.setCall id { call with readDone := call.readDone + 1 } :=
      by
  unfold BlockClient.releaseClaim
  split
  · exact .inl rfl
  split
  · exact .inl rfl
  · exact .inr ⟨_, _, rfl, ‹_›, rfl⟩

variable {call : Call}

theorem Call.takes_final (taken : call.takes header = true) :
    header.isFinal = true ∧ header.isErr = false := by
  unfold Call.takes at taken
  split at taken
  · cases taken
  simp only [and_eq_true, not_eq_true'] at taken
  exact ⟨taken.1.1.2, taken.1.1.1⟩

theorem Call.collect_kept (call : Call) (header : Header) (direct : Bool) (payload : Bytes) :
    let after := call.collect header direct payload
    after.done = call.done ∧ after.stage = call.stage ∧ after.claimed = call.claimed ∧
      after.readDone = call.readDone ∧ after.dst = call.dst := by
  unfold Call.collect
  split
  · exact ⟨rfl, rfl, rfl, rfl, rfl⟩
  · exact ⟨rfl, rfl, rfl, rfl, rfl⟩

theorem Books.claim (books : client.Books) (idle : client.reader = .idle)
    (mem : header.reqID ∈ client.pending) (here : client.calls header.reqID = some call)
    (takes : call.takes header = true) :
    { client.setCall header.reqID { call with claimed := true } with
      reader := .routed header (some header.reqID) (Padded.blank 0) }.Books := by
  have before := books.calls header.reqID call here
  have free : call.claimed = false := by
    by_contra taken
    rw [not_eq_false] at taken
    have engaged := before.claimed mem taken
    rw [idle] at engaged
    exact engaged
  have owes : ∀ id, client.reader.owes id = 0 := by
    intro id
    rw [idle]
    rfl
  obtain ⟨final, sound⟩ := Call.takes_final takes
  refine books.of_call rfl books.ended books.halted ?_ (here ▸ rfl) rfl ?_
    fun other ne => ⟨?_, fun pending => pending, ?_, ?_⟩
  · rintro id ⟨⟩
    exact ⟨rfl, final, sound⟩
  · refine ⟨?_, before.causes, before.frames, before.live, ?_, ?_, fun _ _ => rfl⟩
    · have once := before.owed
      simp only [BlockClient.owed, setCall, owes header.reqID] at once ⊢
      exact once
    · exact Nat.le_of_eq (by rw [if_pos (by rfl), (before.unclaimed free).1])
    · intro unclaimed
      cases unclaimed
  · simp only [BlockClient.owed, setCall, owes other]
    exact Nat.le_refl _
  · intro claims
    exact absurd (Option.some.inj claims).symm ne
  · intro engaged
    rw [idle] at engaged
    exact engaged.elim

variable {reader : ReadLoop}

theorem Books.pass (books : client.Books) (idle : client.reader = .idle)
    (next : (∃ header got, reader = .routed header none got) ∨ reader = .broken) :
    { client with reader }.Books := by
  have facts : reader.claim = none ∧ (∀ id, reader.owes id = 0) ∧ reader.Knows := by
    rcases next with ⟨header, got, rfl⟩ | rfl
    · refine ⟨rfl, fun _ => rfl, ?_⟩
      rintro id ⟨⟩
    · exact ⟨rfl, fun _ => rfl, trivial⟩
  obtain ⟨unclaimed, owes, knows⟩ := facts
  refine books.of_eases rfl books.ended books.halted knows rfl
    fun id => ⟨?_, fun pending => pending, ?_, ?_⟩
  · simp only [BlockClient.owed, owes id]
    exact Nat.add_le_add_left (zero_le _) _
  · intro claims
    rw [unclaimed] at claims
    cases claims
  · intro engaged
    rw [idle] at engaged
    exact engaged.elim

variable {claim : Option Nat}

section

variable (books : client.Books)
include books

variable {got payload : Bytes} {id : Nat}

theorem Books.receive (routed : client.reader = .routed header claim got) :
    { client with reader := .routed header claim more }.Books := by
  have knows := books.reader
  rw [routed] at knows
  refine books.of_eases rfl books.ended books.halted knows rfl
    fun id => ⟨?_, fun pending => pending, ?_, ?_⟩
  · simp only [BlockClient.owed, routed]
    exact Nat.le_refl _
  · intro claims
    rw [routed]
    exact claims
  · intro engaged _
    rw [routed] at engaged
    exact engaged

theorem Books.fill (here : client.calls id = some call) (got piece : Bytes) :
    (client.setCall id (call.fill got piece)).Books := by
  refine books.of_call rfl books.ended books.halted books.reader (here ▸ rfl) rfl
    { books.calls id call here with } fun _ _ => ?_
  exact ⟨Nat.le_refl _, fun mem => mem, fun claims => claims, fun engaged _ => engaged⟩

theorem Books.releaseClaim (routed : client.reader = .routed header claim got)
    (next : reader = .received header claim got ∨ reader = .broken) :
    { client.releaseClaim claim with reader }.Books := by
  have knows := books.reader
  rw [routed] at knows
  have facts : reader.claim = none ∧ (∀ id, reader.owes id = 0) ∧
      reader.Knows ∧ ∀ id, claim = some id → reader.Engaged id := by
    rcases next with rfl | rfl
    · exact ⟨rfl, fun _ => rfl, knows, fun _ same => same⟩
    · exact ⟨rfl, fun _ => rfl, trivial, fun _ _ => trivial⟩
  obtain ⟨unclaimed, owes, knowsNext, engaged⟩ := facts
  have noClaim : ∀ id, reader.claim ≠ some id := by
    intro id claims
    rw [unclaimed] at claims
    cases claims
  have eases : ∀ id, client.Eases { client with reader } id := by
    intro id
    refine ⟨?_, fun pending => pending, fun claims => absurd claims (noClaim id), ?_⟩
    · simp only [BlockClient.owed, owes id]
      exact le_add_right _ _
    · intro holds _
      rw [routed] at holds
      exact engaged id holds
  rcases client.releaseClaim_cases claim with same | ⟨id, call, rfl, here, same⟩
  · rw [same]
    exact books.of_eases rfl books.ended books.halted knowsNext rfl eases
  · have mine := books.calls id call here
    have held : client.reader.claim = some id := by
      rw [routed]
      rfl
    have never := mine.releases
    rw [if_pos held] at never
    rw [same]
    refine books.of_call rfl books.ended books.halted knowsNext (here ▸ rfl) rfl ?_
      fun other _ => { eases other with }
    refine ⟨Nat.le_trans (Nat.add_le_add_right (eases id).owed _) mine.owed, mine.causes,
      mine.frames, mine.live, ?_, ?_, fun _ _ => engaged id rfl⟩
    · rw [if_neg (noClaim id)]
      change 0 + (call.readDone + 1) ≤ 1
      omega
    · intro free
      exact absurd held (mine.unclaimed free).2

theorem Books.collect (received : client.reader = .received header claim payload)
    (mem : header.reqID ∈ client.pending) (here : client.calls header.reqID = some call) :
    (client.collected header claim payload call).Books := by
  have before := books.calls header.reqID call here
  have once := before.owed
  have counted := count_pos_iff.mpr mem
  have knows := books.reader
  rw [received] at knows
  obtain ⟨done, stage, claimed, readDone, _⟩ := Call.collect_kept call header claim.isSome payload
  have frames : ∀ frame ∈ (call.collect header claim.isSome payload).frames,
      frame.header.reqID = header.reqID ∧ frame.header.isErr = false := by
    unfold Call.collect
    split
    · exact before.frames
    rename_i sound
    exact forall_mem_append.mpr
      ⟨before.frames, forall_mem_singleton.mpr ⟨rfl, by simpa using sound⟩⟩
  have owes : ∀ id, client.reader.owes id = 0 := by
    intro id
    rw [received]
    rfl
  have others : ∀ other, other ≠ header.reqID → ¬client.reader.Engaged other := by
    intro other ne engaged
    rw [received] at engaged
    exact ne (knows other engaged).1.symm
  simp only [BlockClient.owed, owes header.reqID] at once
  unfold collected
  split_ifs with last
  · have gone := before.not_mem_erase
    refine books.of_call rfl ?_ books.halted rfl (here ▸ rfl) rfl ?_ fun other ne =>
      ⟨?_, fun pending => mem_of_mem_erase pending, by rintro ⟨⟩,
        fun engaged => absurd engaged (others other ne)⟩
    · intro broken
      rw [books.ended broken] at mem
      cases mem
    · refine ⟨?_, ?_, frames, fun pending => absurd pending gone, ?_, ?_,
        fun pending => absurd pending gone⟩
      · simp only [BlockClient.owed, setCall, ReadLoop.owes, done, count_erase_self, if_pos]
        omega
      · rw [done]
        exact before.causes
      · have released := before.releases
        rw [readDone, if_neg (by rintro ⟨⟩)]
        omega
      · rw [claimed, readDone]
        intro free
        refine ⟨(before.unclaimed free).1, ?_⟩
        rintro ⟨⟩
    · simp only [BlockClient.owed, setCall, ReadLoop.owes,
        count_erase_of_ne ne, if_neg (Ne.symm ne)]
      exact Nat.add_le_add_left (zero_le _) _
  · have unclaimed : ∀ id, claim ≠ some id := by
      intro id held
      simp [(knows id held).2.1] at last
    refine books.of_call rfl books.ended books.halted trivial (here ▸ rfl) rfl ?_
      fun other ne => ⟨?_, fun pending => pending, by rintro ⟨⟩,
        fun engaged => absurd engaged (others other ne)⟩
    · refine ⟨?_, ?_, frames, ?_, ?_, ?_, ?_⟩
      · simp only [BlockClient.owed, setCall, ReadLoop.owes, done]
        omega
      · rw [done]
        exact before.causes
      · rw [stage]
        exact before.live
      · have released := before.releases
        rw [readDone, if_neg (by rintro ⟨⟩)]
        omega
      · rw [claimed, readDone]
        intro free
        refine ⟨(before.unclaimed free).1, ?_⟩
        rintro ⟨⟩
      · rw [claimed]
        intro pending taken
        have engaged := before.claimed pending taken
        rw [received] at engaged
        exact absurd engaged (unclaimed header.reqID)
    · simp only [BlockClient.owed, setCall, owes other]
      exact Nat.le_refl _

theorem Books.discard (received : client.reader = .received header claim payload)
    (absent : header.reqID ∉ client.pending) : { client with reader := .idle }.Books := by
  have knows := books.reader
  rw [received] at knows
  refine books.of_eases rfl books.ended books.halted trivial rfl
    fun id => ⟨?_, fun pending => pending, by rintro ⟨⟩, ?_⟩
  · simp only [BlockClient.owed, ReadLoop.owes]
    exact le_add_right _ _
  · intro engaged pending
    rw [received] at engaged
    rw [(knows id engaged).1] at absent
    exact absurd pending absent

theorem Books.closeDone (closing : client.reader = .closing id header)
    (here : client.calls id = some call) :
    { client.setCall id { call with done := .frame header :: call.done } with
      reader := .idle }.Books := by
  have before := books.calls id call here
  have once := before.owed
  have knows := books.reader
  rw [closing] at knows
  simp only [BlockClient.owed, closing, ReadLoop.owes, if_pos] at once
  have idle : ∀ other, ¬client.reader.Engaged other := by
    intro other engaged
    rw [closing] at engaged
    exact engaged
  refine books.of_call rfl books.ended books.halted trivial (here ▸ rfl) rfl ?_
    fun other _ => ⟨?_, fun pending => pending, by rintro ⟨⟩,
      fun engaged => absurd engaged (idle other)⟩
  · refine ⟨?_, ?_, before.frames, before.live, ?_, ?_, ?_⟩
    · simp only [BlockClient.owed, setCall, ReadLoop.owes, length_cons]
      omega
    · intro found mem
      rcases mem_cons.mp mem with same | earlier
      · cases same
        exact knows
      · exact before.causes found earlier
    · have released := before.releases
      rw [if_neg (by rintro ⟨⟩)]
      change 0 + call.readDone ≤ 1
      omega
    · intro free
      refine ⟨(before.unclaimed free).1, ?_⟩
      rintro ⟨⟩
    · intro pending
      have counted : 0 < client.pending.count id := count_pos_iff.mpr pending
      omega
  · simp only [BlockClient.owed, setCall, ReadLoop.owes]
    exact le_add_right _ _

end

end Reader

end BlockClient

end Cornus.Wire
