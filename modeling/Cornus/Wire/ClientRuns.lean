import Cornus.Wire.BlockClient

/-!
# Runs of the client mux

Whatever the peer sends, no channel is closed twice and a call is completed by
its own frames.  A buffer is left alone after its round trip has returned, and
a direct delivery is a whole response, as long as no failed send and no `Close`
completes the calls while the reader fills a buffer, and no streamed response ends
in a frame that fits.
-/

namespace Cornus.Wire

open BlockCache Lib Function List Option BlockClient

namespace BlockClient

/-! ## What a step can do -/

/-- The steps of the client, one constructor for each way a step can end. -/
inductive Move (client : BlockClient) : ClientEvent → BlockClient → Prop where
  | refuse (dst : Option Bytes) (metaLen : Nat) (ended : client.readErr = true) :
      client.Move (.register dst metaLen) { client.setCall (client.nextID + 1)
            { Call.new dst metaLen with stage := .returned } with
          nextID := client.nextID + 1 }
  | register (dst : Option Bytes) (metaLen : Nat) (sound : client.readErr = false) :
      client.Move (.register dst metaLen)
        { client.setCall (client.nextID + 1) (Call.new dst metaLen) with
          nextID := client.nextID + 1, pending := (client.nextID + 1) :: client.pending }
  | send (id : Nat) (call : Call) (here : client.calls id = some call)
      (stage : call.stage = .registered) :
      client.Move (.send id) (client.setCall id { call with stage := .waiting })
  | sendError (id : Nat) (call : Call) (here : client.calls id = some call)
      (stage : call.stage = .registered) :
      client.Move (.sendError id) { client.setCall id { call with stage := .unsent } with
          pending := client.pending.erase id }
  | wake (id : Nat) (call : Call) (here : client.calls id = some call)
      (ready : call.stage = .waiting ∧ (call.done ≠ [] ∨ client.closed) ∨
        call.stage = .unsent ∧ client.closed) :
      client.Move (.wake id) (client.setCall id { call with stage := .returned })
  | cancelClaimed (id : Nat) (call : Call)
      (here : client.calls id = some call) (stage : call.stage = .waiting)
      (claimed : call.claimed = true) :
      client.Move (.cancel id) { client.setCall id { call with stage := .releasing } with
          pending := client.pending.erase id }
  | cancelFree (id : Nat) (call : Call)
      (here : client.calls id = some call) (stage : call.stage = .waiting)
      (free : call.claimed = false) :
      client.Move (.cancel id) { client.setCall id { call with stage := .returned } with
          pending := client.pending.erase id }
  | release (id : Nat) (call : Call) (here : client.calls id = some call)
      (stage : call.stage = .releasing) (released : 0 < call.readDone) :
      client.Move (.release id) (client.setCall id { call with stage := .returned })
  | claim (header : Header) (call : Call) (idle : client.reader = .idle)
      (member : header.reqID ∈ client.pending) (here : client.calls header.reqID = some call)
      (takes : call.takes header = true) :
      client.Move (.header header) { client.setCall header.reqID { call with claimed := true } with
          reader := .routed header (some header.reqID) (Padded.blank 0) }
  | pass (header : Header) (reader : ReadLoop) (idle : client.reader = .idle)
      (next : (∃ got, reader = .routed header none got) ∨ reader = .broken) :
      client.Move (.header header) { client with reader }
  | readErrorIdle (idle : client.reader = .idle) :
      client.Move .readError { client with reader := .broken }
  | readErrorRouted (header : Header) (claim : Option Nat) (got : Bytes)
      (routed : client.reader = .routed header claim got) :
      client.Move .readError { client.releaseClaim claim with reader := .broken }
  | receive (piece : Bytes) (header : Header) (got : Bytes)
      (routed : client.reader = .routed header none got) :
      client.Move (.receive piece) { client with
          reader := .routed header none (got.splice got.len piece) }
  | receiveInto (piece : Bytes) (header : Header) (got : Bytes) (id : Nat)
      (call : Call) (routed : client.reader = .routed header (some id) got)
      (here : client.calls id = some call) :
      client.Move (.receive piece) { client.setCall id (call.fill got piece) with
          reader := .routed header (some id) (got.splice got.len piece) }
  | payloadEnd (header : Header) (claim : Option Nat) (got : Bytes)
      (routed : client.reader = .routed header claim got) :
      client.Move .payloadEnd { client.releaseClaim claim with
          reader := .received header claim got }
  | collect (header : Header) (claim : Option Nat) (payload : Bytes)
      (call : Call) (received : client.reader = .received header claim payload)
      (member : header.reqID ∈ client.pending) (here : client.calls header.reqID = some call) :
      client.Move .route (client.collected header claim payload call)
  | discard (header : Header) (claim : Option Nat) (payload : Bytes)
      (received : client.reader = .received header claim payload)
      (absent : header.reqID ∉ client.pending) : client.Move .route { client with reader := .idle }
  | closeDone (header : Header) (id : Nat) (call : Call)
      (closing : client.reader = .closing id header) (here : client.calls id = some call) :
      client.Move .closeDone { client.setCall id
            { call with done := .frame header :: call.done } with
          reader := .idle }
  | close : client.Move .close { client with closing := true }
  | fail (failer : Failer) (may : client.mayFail failer = true) (first : client.failing = none) :
      client.Move (.fail failer) { client with
          readErr := true
          failing := some client.pending
          pending := [] }
  | failCall (id : Nat) (ids : List Nat) (call : Call)
      (running : client.failing = some ids) (listed : id ∈ ids)
      (here : client.calls id = some call) :
      client.Move (.failCall id) { client.setCall id { call with
              err := some .broken
              done := .failure :: call.done } with
          failing := some (ids.erase id) }
  | failEnd (running : client.failing = some []) :
      client.Move .failEnd { client with failing := none, closed := true }

variable {client next : BlockClient}

theorem header_move (taken : client.step (.header header) = some next) :
    client.Move (.header header) next := by
  simp only [step] at taken
  split at taken
  · rename_i idle
    split_ifs at taken with long pending
    · cases taken
      exact .pass header .broken idle (.inr rfl)
    · obtain ⟨call, here, rfl⟩ := map_eq_some_iff.mp taken
      split_ifs with takes
      · exact .claim header call idle pending here takes
      · exact .pass header _ idle (.inl ⟨_, rfl⟩)
    · cases taken
      exact .pass header _ idle (.inl ⟨_, rfl⟩)
  · cases taken

theorem receive_move (taken : client.step (.receive piece) = some next) :
    client.Move (.receive piece) next := by
  simp only [step] at taken
  split at taken
  · rename_i header claim got routed
    split_ifs at taken
    cases claim with
    | none =>
      cases taken
      exact .receive piece header got routed
    | some id =>
      obtain ⟨call, here, filled⟩ := bind_eq_some_iff.mp taken
      split_ifs at filled
      cases filled
      exact .receiveInto piece header got id call routed here
  · cases taken

theorem route_move (taken : client.step .route = some next) : client.Move .route next := by
  simp only [step] at taken
  split at taken
  · rename_i header claim payload received
    split at taken
    · rename_i pending
      obtain ⟨call, here, rfl⟩ := map_eq_some_iff.mp taken
      exact .collect header claim payload call received pending here
    · rename_i absent
      cases taken
      exact .discard header claim payload received absent
  · cases taken

variable {event : ClientEvent}

/-- Everything that a step can do. -/
theorem step_move (taken : client.step event = some next) : client.Move event next := by
  cases event with
  | register dst metaLen =>
    simp only [step] at taken
    split_ifs at taken with ended
    · cases taken
      exact .refuse dst metaLen ended
    · cases taken
      exact .register dst metaLen (by simpa using ended)
  | send id =>
    obtain ⟨call, here, rest⟩ := bind_eq_some_iff.mp taken
    split_ifs at rest with stage
    cases rest
    exact .send id call here stage
  | sendError id =>
    obtain ⟨call, here, rest⟩ := bind_eq_some_iff.mp taken
    split_ifs at rest with stage
    cases rest
    exact .sendError id call here stage
  | wake id =>
    obtain ⟨call, here, rest⟩ := bind_eq_some_iff.mp taken
    split_ifs at rest with ready
    cases rest
    exact .wake id call here ready
  | cancel id =>
    obtain ⟨call, here, rest⟩ := bind_eq_some_iff.mp taken
    split_ifs at rest with stage claimed
    · cases rest
      exact .cancelClaimed id call here stage claimed
    · cases rest
      exact .cancelFree id call here stage (by simpa using claimed)
  | release id =>
    obtain ⟨call, here, rest⟩ := bind_eq_some_iff.mp taken
    split_ifs at rest with ready
    cases rest
    exact .release id call here ready.1 ready.2
  | header header => exact header_move taken
  | readError =>
    simp only [step] at taken
    split at taken
    · rename_i idle
      cases taken
      exact .readErrorIdle idle
    · rename_i header claim got routed
      cases taken
      exact .readErrorRouted header claim got routed
    · cases taken
  | receive piece => exact receive_move taken
  | payloadEnd =>
    simp only [step] at taken
    split at taken
    · rename_i header claim got routed
      split_ifs at taken
      cases taken
      exact .payloadEnd header claim got routed
    · cases taken
  | route => exact route_move taken
  | closeDone =>
    simp only [step] at taken
    split at taken
    · rename_i id header closing
      obtain ⟨call, here, rfl⟩ := map_eq_some_iff.mp taken
      exact .closeDone header id call closing here
    · cases taken
  | close =>
    cases taken
    exact .close
  | fail failer =>
    simp only [step] at taken
    split_ifs at taken with ready
    cases taken
    exact .fail failer ready.1 ready.2.1
  | failCall id =>
    simp only [step] at taken
    split at taken
    · cases taken
    rename_i ids running
    split_ifs at taken with listed
    obtain ⟨call, here, rfl⟩ := map_eq_some_iff.mp taken
    exact .failCall id ids call running listed here
  | failEnd =>
    simp only [step] at taken
    split at taken <;> cases taken
    rename_i running
    exact .failEnd running

/-! ## The books of a run -/

theorem books_start (maxFrame : Nat) : (start maxFrame).Books where
  fresh := fun _ _ => ⟨rfl, rfl, by rintro ⟨⟩⟩
  calls := fun _ _ here => by cases here
  ended := fun _ => rfl
  halted := by
    rintro (running | closed)
    · exact absurd rfl running
    · cases closed
  reader := trivial

theorem Books.move (books : client.Books) (move : client.Move event next) : next.Books := by
  cases move with
  | refuse dst metaLen ended =>
    exact books.add rfl rfl rfl rfl (.inl rfl) rfl rfl
  | register dst metaLen sound =>
    exact books.add rfl rfl rfl rfl (.inr ⟨rfl, sound, rfl⟩) rfl rfl
  | send id call here stage =>
    exact books.setStage here fun _ => .inr rfl
  | sendError id call here stage =>
    exact books.abandon here .unsent
  | wake id call here ready => exact books.wake here ready
  | cancelClaimed id call here stage claimed =>
    exact books.abandon here .releasing
  | cancelFree id call here stage free =>
    exact books.abandon here .returned
  | release id call here stage released =>
    apply books.setStage here
    intro mem
    have live := (books.calls id call here).live mem
    simp [stage] at live
  | claim header call idle mem here takes =>
    exact books.claim idle mem here takes
  | pass header reader idle next =>
    apply books.pass idle
    rcases next with ⟨got, rfl⟩ | rfl
    · exact .inl ⟨header, got, rfl⟩
    · exact .inr rfl
  | readErrorIdle idle => exact books.pass idle (.inr rfl)
  | readErrorRouted header claim got routed =>
    exact books.releaseClaim routed (.inr rfl)
  | receive piece header got routed => exact books.receive routed
  | receiveInto piece header got id call routed here =>
    exact (books.fill here got piece).receive routed
  | payloadEnd header claim got routed =>
    exact books.releaseClaim routed (.inl rfl)
  | collect header claim payload call received mem here =>
    exact books.collect received mem here
  | discard header claim payload received absent =>
    exact books.discard received absent
  | closeDone header id call closing here =>
    exact books.closeDone closing here
  | close =>
    exact books.of_eases rfl books.ended books.halted books.reader rfl fun _ =>
      ⟨Nat.le_refl _, fun mem => mem, fun claims => claims, fun engaged _ => engaged⟩
  | fail failer may first => exact books.fail first
  | failCall id ids call running listed here =>
    exact books.failCall running listed here
  | failEnd running => exact books.failEnd running

/-! ## Careful runs -/

/-- A failed send or `Close` completes the calls only while the reader fills no
buffer, and the reader claims no buffer for a response that has begun to stream. -/
def Careful (client : BlockClient) : ClientEvent → Prop
  | .fail (.sender _) => client.reader.claim = none
  | .fail .closer => client.reader.claim = none
  | .header header =>
    match client.calls header.reqID with
    | none => True
    | some call => header.reqID ∈ client.pending →
        call.takes header = true → call.frames.isEmpty = true
  | _ => True

instance (client : BlockClient) (event : ClientEvent) : Decidable (client.Careful event) :=
  match event with
  | .fail (.sender _) | .fail .closer => inferInstanceAs (Decidable (_ = _))
  | .fail .reader => .isTrue trivial
  | .header header =>
    match here : client.calls header.reqID with
    | none => .isTrue (by
        simp only [Careful]
        rw [here]
        trivial)
    | some call => decidable_of_iff (header.reqID ∈ client.pending → call.takes header = true →
          call.frames.isEmpty = true) (by
        simp only [Careful]
        rw [here])
  | .register _ _ | .send _ | .sendError _ | .wake _ | .cancel _ | .release _ | .readError
  | .receive _ | .payloadEnd | .route | .closeDone | .close | .failCall _
  | .failEnd => .isTrue trivial

end BlockClient

/-- The call the reader claimed the buffer of, up to the routing of its
frame. -/
def ReadLoop.target : ReadLoop → Option Nat
  | .routed _ claim _ => claim
  | .received _ claim _ => claim
  | _ => none

namespace BlockClient

/-- What careful steps add.  No buffer is claimed once `fail` has run, the call of a
claimed buffer has not returned and nothing would wake it, and a direct delivery is
the only frame of its call. -/
structure Steady (client : BlockClient) : Prop where
  sealed : client.readErr = true → client.reader.claim = none
  held : ∀ id call, client.calls id = some call → client.reader.claim = some id →
    call.done = [] ∧ call.stage ≠ .returned
  single : ∀ id call, client.calls id = some call → call.delivered = true →
      id ∉ client.pending ∧ ∃ frame, call.frames = [frame]
  vacant : ∀ id call, client.calls id = some call →
    client.reader.target = some id → id ∈ client.pending → call.frames = []

theorem steady_start (maxFrame : Nat) : (start maxFrame).Steady where
  sealed := fun _ => rfl
  held := fun _ _ here => by cases here
  single := fun _ _ here => by cases here
  vacant := fun _ _ here => by cases here

/-- No call's frames change. -/
def KeepsFrames (client next : BlockClient) : Prop :=
  ∀ id call, next.calls id = some call → ∃ old,
    client.calls id = some old ∧ call.frames = old.frames ∧ call.delivered = old.delivered

variable {client next : BlockClient}

theorem keepsFrames_of_eq (calls : next.calls = client.calls) : client.KeepsFrames next := by
  intro id call here
  exact ⟨call, calls ▸ here, rfl, rfl⟩

variable {id : Nat} {old new : Call}

theorem keepsFrames_of_update (here : client.calls id = some old)
    (calls : next.calls = update client.calls id (some new))
    (frames : new.frames = old.frames) (delivered : new.delivered = old.delivered) :
    client.KeepsFrames next := by
  intro other call found
  rw [calls] at found
  rcases update_eq_some_iff.mp found with ⟨rfl, rfl⟩ | ⟨_, found⟩
  · exact ⟨old, here, frames, delivered⟩
  · exact ⟨call, found, rfl, rfl⟩

theorem keepsFrames_releaseClaim (client : BlockClient) (claim : Option Nat) (reader : ReadLoop) :
    client.KeepsFrames { client.releaseClaim claim with reader } := by
  rcases client.releaseClaim_cases claim with same | ⟨id, call, rfl, here, same⟩
  · rw [same]
    exact keepsFrames_of_eq rfl
  · rw [same]
    exact keepsFrames_of_update here rfl rfl rfl

theorem releaseClaim_pending (client : BlockClient) (claim : Option Nat) :
    (client.releaseClaim claim).pending = client.pending := by
  rcases client.releaseClaim_cases claim with same | ⟨_, _, _, _, same⟩ <;> rw [same]
  rfl

section

variable (steady : client.Steady)
include steady

theorem Steady.of_keepsFrames (keeps : client.KeepsFrames next)
    (pending : ∀ id ∈ next.pending, id ∈ client.pending)
    (target : ∀ id, next.reader.target = some id → client.reader.target = some id)
    (sealed : next.readErr = true → next.reader.claim = none)
    (held : ∀ id call, next.calls id = some call → next.reader.claim = some id →
      call.done = [] ∧ call.stage ≠ .returned) : next.Steady where
  sealed
  held
  single := by
    intro id call here delivered
    obtain ⟨old, before, frames, same⟩ := keeps id call here
    rw [same] at delivered
    obtain ⟨gone, frame, only⟩ := steady.single id old before delivered
    exact ⟨fun mem => gone (pending id mem), frame, frames.trans only⟩
  vacant := by
    intro id call here claims mem
    obtain ⟨old, before, frames, _⟩ := keeps id call here
    rw [frames]
    exact steady.vacant id old before (target id claims) (pending id mem)

/-- A call goes on to another stage; it returns only when its buffer is not
claimed. -/
theorem Steady.restage (here : client.calls id = some call) (stage : CallStage)
    (free : stage = .returned → client.reader.claim ≠ some id) {pending : List Nat}
    (fewer : ∀ other ∈ pending, other ∈ client.pending) :
    { client.setCall id { call with stage } with pending }.Steady := by
  refine steady.of_keepsFrames (keepsFrames_of_update here rfl rfl rfl) fewer
    (fun _ claims => claims) steady.sealed ?_
  intro other found there claims
  obtain ⟨rfl, rfl⟩ | ⟨_, there⟩ := update_eq_some_iff.mp there
  · exact ⟨(steady.held other call here claims).1, fun returned => free returned claims⟩
  · exact steady.held other found there claims

/-- A call that is woken has no claim on its buffer: `done` is closed, or `fail` has
run. -/
theorem Steady.unclaimed_of_ready (books : client.Books) (here : client.calls id = some call)
    (ready : call.stage = .waiting ∧ (call.done ≠ [] ∨ client.closed) ∨
      call.stage = .unsent ∧ client.closed) : client.reader.claim ≠ some id := by
  intro claims
  have running : ¬client.closed = true := by
    intro closed
    rw [steady.sealed (books.halted (.inr closed))] at claims
    cases claims
  rcases ready with ⟨_, done | closed⟩ | ⟨_, closed⟩
  · exact done (steady.held id call here claims).1
  · exact running closed
  · exact running closed

theorem Steady.add (books : client.Books)
    (calls : next.calls = update client.calls (client.nextID + 1)
      (some { Call.new dst metaLen with stage })) (reader : next.reader = client.reader)
    (readErr : next.readErr = client.readErr)
    (others : ∀ id ∈ next.pending, id ∈ client.pending ∨ id = client.nextID + 1) : next.Steady := by
  have known : ∀ id call, next.calls id = some call →
      id = client.nextID + 1 ∧ call.frames = [] ∧ call.delivered = false ∨
        id ≠ client.nextID + 1 ∧ client.calls id = some call := by
    intro id call here
    rw [calls] at here
    rcases update_eq_some_iff.mp here with ⟨rfl, rfl⟩ | ⟨same, here⟩
    · exact .inl ⟨rfl, rfl, rfl⟩
    · exact .inr ⟨same, here⟩
  constructor
  · rw [readErr, reader]
    exact steady.sealed
  · intro id call here claims
    rw [reader] at claims
    rcases known id call here with ⟨rfl, _⟩ | ⟨_, before⟩
    · exact absurd claims (books.fresh _ (Nat.lt_succ_self _)).2.2
    · exact steady.held id call before claims
  · intro id call here delivered
    rcases known id call here with ⟨_, _, never⟩ | ⟨ne, before⟩
    · rw [never] at delivered
      cases delivered
    · obtain ⟨gone, only⟩ := steady.single id call before delivered
      refine ⟨fun mem => ?_, only⟩
      exact gone ((others id mem).resolve_right ne)
  · intro id call here claims mem
    rcases known id call here with ⟨_, none, _⟩ | ⟨ne, before⟩
    · exact none
    · rw [reader] at claims
      exact steady.vacant id call before claims ((others id mem).resolve_right ne)

variable {header : Header}

theorem Steady.claim (books : client.Books) (mem : header.reqID ∈ client.pending)
    (here : client.calls header.reqID = some call) (vacant : call.frames = []) :
    { client.setCall header.reqID { call with claimed := true } with
      reader := .routed header (some header.reqID) (Padded.blank 0) }.Steady := by
  have keeps := keepsFrames_of_update here
    (rfl : (client.setCall header.reqID { call with claimed := true }).calls = _) rfl rfl
  constructor
  · intro ended
    rw [books.ended ended] at mem
    cases mem
  · rintro id found same ⟨⟩
    obtain ⟨_, rfl⟩ | ⟨ne, _⟩ := update_eq_some_iff.mp same
    · have mine := books.calls header.reqID call here
      have owed := mine.owed
      have counted := count_pos_iff.mpr mem
      simp only [BlockClient.owed] at owed
      refine ⟨length_eq_zero_iff.mp (by simp only; omega), ?_⟩
      rcases mine.live mem with first | second
      · simp [first]
      · simp [second]
    · exact absurd rfl ne
  · intro id found same delivered
    obtain ⟨old, before, frames, kept⟩ := keeps id found same
    rw [kept] at delivered
    rw [frames]
    exact steady.single id old before delivered
  · rintro id found same ⟨⟩ _
    obtain ⟨old, before, frames, _⟩ := keeps _ found same
    rw [here, some.injEq] at before
    rw [frames, ← before, vacant]

variable {claim : Option Nat}

/-- The routing of a frame.  A claimed call has no earlier frame, and the frame
that is delivered into its buffer takes it out of the table. -/
theorem Steady.collect (books : client.Books)
    (received : client.reader = .received header claim payload)
    (mem : header.reqID ∈ client.pending) (here : client.calls header.reqID = some call) :
    (client.collected header claim payload call).Steady := by
  have knows := books.reader
  rw [received] at knows
  have undelivered : call.delivered = false := by
    by_contra taken
    rw [Bool.not_eq_false] at taken
    exact (steady.single header.reqID call here taken).1 mem
  have mine : (call.collect header claim.isSome payload).delivered = true →
      header.isFinal = true ∧ ∃ frame, (call.collect header claim.isSome payload).frames =
          [frame] := by
    intro delivered
    cases claim with
    | none =>
      simp [Call.collect, apply_ite Call.delivered, undelivered] at delivered
    | some id =>
      obtain ⟨same, final, sound⟩ := knows id rfl
      have vacant : call.frames = [] := by
        apply steady.vacant header.reqID call here _ mem
        rw [received, same]
        rfl
      exact ⟨final, by simp [Call.collect, sound, vacant]⟩
  have others : ∀ id ∈ client.pending.erase header.reqID,
      id ∈ client.pending := fun _ => mem_of_mem_erase
  unfold collected
  split_ifs with last
  · refine ⟨fun _ => rfl, by rintro id found same ⟨⟩, ?_, by rintro id found same ⟨⟩⟩
    intro id found same delivered
    obtain ⟨rfl, rfl⟩ | ⟨_, before⟩ := update_eq_some_iff.mp same
    · exact ⟨(books.calls header.reqID call here).not_mem_erase, (mine delivered).2⟩
    · obtain ⟨absent, only⟩ := steady.single id found before delivered
      exact ⟨fun still => absent (others id still), only⟩
  · refine ⟨fun _ => rfl, by rintro id found same ⟨⟩, ?_, by rintro id found same ⟨⟩⟩
    intro id found same delivered
    obtain ⟨rfl, rfl⟩ | ⟨_, before⟩ := update_eq_some_iff.mp same
    · simp [(mine delivered).1] at last
    · exact steady.single id found before delivered

theorem Steady.move (books : client.Books) (careful : client.Careful event)
    (move : client.Move event next) : next.Steady := by
  cases move with
  | refuse dst metaLen ended =>
    exact steady.add books rfl rfl rfl fun _ mem => .inl mem
  | register dst metaLen sound =>
    exact steady.add books rfl rfl rfl fun _ mem => (mem_cons.mp mem).symm
  | send id call here stage => exact steady.restage here .waiting nofun fun _ mem => mem
  | sendError id call here stage =>
    exact steady.restage here .unsent nofun fun _ => mem_of_mem_erase
  | wake id call here ready =>
    exact steady.restage here .returned (fun _ => steady.unclaimed_of_ready books here ready)
      fun _ mem => mem
  | release id call here stage released =>
    refine steady.restage here .returned (fun _ claims => ?_) fun _ mem => mem
    have once := (books.calls id call here).releases
    rw [if_pos claims] at once
    omega
  | cancelClaimed id call here stage claimed =>
    exact steady.restage here .releasing nofun fun _ => mem_of_mem_erase
  | cancelFree id call here stage free =>
    exact steady.restage here .returned
      (fun _ => ((books.calls id call here).unclaimed free).2) fun _ => mem_of_mem_erase
  | claim header call idle mem here takes =>
    apply steady.claim books mem here
    simp only [Careful, here] at careful
    exact isEmpty_iff.mp (careful mem takes)
  | pass header reader idle next =>
    have unclaimed : reader.target = none ∧ reader.claim = none := by
      rcases next with ⟨got, rfl⟩ | rfl
      · exact ⟨rfl, rfl⟩
      · exact ⟨rfl, rfl⟩
    refine steady.of_keepsFrames (keepsFrames_of_eq rfl) (fun _ mem => mem) ?_
      (fun _ => unclaimed.2) ?_
    · intro id claims
      rw [unclaimed.1] at claims
      cases claims
    · intro id call _ claims
      rw [unclaimed.2] at claims
      cases claims
  | readErrorIdle idle | receive piece header got routed
  | discard header claim payload received absent =>
    exact steady.of_keepsFrames (keepsFrames_of_eq rfl)
      (fun _ mem => mem) (by rintro id ⟨⟩) (fun _ => rfl) (by rintro id call _ ⟨⟩)
  | readErrorRouted header claim got routed =>
    apply steady.of_keepsFrames (keepsFrames_releaseClaim _ _ _)
    · intro id mem
      exact releaseClaim_pending client claim ▸ mem
    · rintro id ⟨⟩
    · exact fun _ => rfl
    · rintro id call _ ⟨⟩
  | receiveInto piece header got id call routed here =>
    have claim : client.reader.claim = some id := by
      rw [routed]
      rfl
    refine steady.of_keepsFrames (keepsFrames_of_update here rfl rfl rfl)
      (fun _ mem => mem) ?_ ?_ ?_
    · intro other claims
      rw [routed]
      exact claims
    · intro ended
      rw [steady.sealed ended] at claim
      cases claim
    · rintro other found there ⟨⟩
      obtain ⟨_, rfl⟩ | ⟨ne, _⟩ := update_eq_some_iff.mp there
      · exact steady.held id call here claim
      · exact absurd rfl ne
  | payloadEnd header claim got routed =>
    apply steady.of_keepsFrames (keepsFrames_releaseClaim _ _ _)
    · intro id mem
      exact releaseClaim_pending client claim ▸ mem
    · intro id claims
      rw [routed]
      exact claims
    · exact fun _ => rfl
    · rintro id call _ ⟨⟩
  | collect header claim payload call received mem here =>
    exact steady.collect books received mem here
  | closeDone header id call closing here =>
    exact steady.of_keepsFrames (keepsFrames_of_update here rfl rfl rfl)
      (fun _ mem => mem) (by rintro id ⟨⟩) (fun _ => rfl) (by rintro id call _ ⟨⟩)
  | close =>
    exact steady.of_keepsFrames (keepsFrames_of_eq rfl)
      (fun _ mem => mem) (fun _ claims => claims) steady.sealed steady.held
  | fail failer may first =>
    have unclaimed : client.reader.claim = none := by
      cases failer with
      | sender sent => exact careful
      | reader =>
        simp only [mayFail] at may
        split at may
        · rename_i stopped
          rw [stopped]
          rfl
        · cases may
      | closer => exact careful
    exact steady.of_keepsFrames (keepsFrames_of_eq rfl)
      (fun _ mem => by cases mem) (fun _ claims => claims) (fun _ => unclaimed) steady.held
  | failCall id ids call running listed here =>
    have sealed := steady.sealed (books.halted (.inl (running ▸ some_ne_none _)))
    refine steady.of_keepsFrames (keepsFrames_of_update here rfl rfl rfl)
      (fun _ mem => mem) (fun _ claims => claims) steady.sealed ?_
    intro other found _ claims
    rw [show client.reader.claim = some other from claims] at sealed
    cases sealed
  | failEnd running =>
    exact steady.of_keepsFrames (keepsFrames_of_eq rfl)
      (fun _ mem => mem) (fun _ claims => claims) steady.sealed steady.held

end

/-! ## Returned round trips -/

/-- The round trip of the call has returned and left `dst` in its buffer. -/
def Rests (client : BlockClient) (id : Nat) (dst : Option Bytes) : Prop :=
  ∃ call, client.calls id = some call ∧ call.stage = .returned ∧ call.dst = dst

section

variable (rests : client.Rests id dst)
include rests

theorem Rests.of_eq (calls : next.calls = client.calls) : next.Rests id dst := by
  obtain ⟨call, here, facts⟩ := rests
  exact ⟨call, calls ▸ here, facts⟩

theorem Rests.of_update (here : client.calls other = some old)
    (calls : next.calls = update client.calls other (some new))
    (keeps : old.stage = .returned → new.stage = .returned ∧ (id = other → new.dst = old.dst)) :
    next.Rests id dst := by
  obtain ⟨call, before, stage, buffer⟩ := rests
  by_cases same : id = other
  · subst same
    rw [here, some.injEq] at before
    subst before
    obtain ⟨returned, unchanged⟩ := keeps stage
    exact ⟨new, by rw [calls, update_self], returned, (unchanged rfl).trans buffer⟩
  · exact ⟨call, by rw [calls, update_of_ne same, before], stage, buffer⟩

theorem Rests.of_stage (here : client.calls other = some old)
    (calls : next.calls = update client.calls other (some new))
    (moves : old.stage ≠ .returned) : next.Rests id dst :=
  rests.of_update here calls fun returned => absurd returned moves

theorem Rests.releaseClaim (claim : Option Nat) (reader : ReadLoop) :
    { client.releaseClaim claim with reader }.Rests id dst := by
  rcases client.releaseClaim_cases claim with same | ⟨other, call, rfl, here, same⟩
  · rw [same]
    exact rests.of_eq rfl
  · rw [same]
    exact rests.of_update here rfl fun returned => ⟨returned, fun _ => rfl⟩

theorem Rests.add (books : client.Books)
    (calls : next.calls = update client.calls (client.nextID + 1)
      (some new)) : next.Rests id dst := by
  obtain ⟨call, here, facts⟩ := rests
  have ne : id ≠ client.nextID + 1 := by
    rintro rfl
    have absent := (books.fresh _ (Nat.lt_succ_self client.nextID)).1
    rw [absent] at here
    cases here
  exact ⟨call, by rw [calls, update_of_ne ne, here], facts⟩

theorem Rests.collect (here : client.calls header.reqID = some call) :
    (client.collected header claim payload call).Rests id dst := by
  obtain ⟨_, stage, _, _, buffer⟩ := Call.collect_kept call header claim.isSome payload
  unfold collected
  split_ifs
  all_goals exact rests.of_update here rfl fun returned =>
    ⟨stage.trans returned, fun _ => buffer⟩

/-- A buffer that the reader still fills belongs to a call that has not
returned. -/
theorem Rests.move (books : client.Books) (steady : client.Steady) (move : client.Move event next)
    : next.Rests id dst := by
  cases move with
  | refuse dst metaLen ended | register dst metaLen sound => exact rests.add books rfl
  | send other call here stage | sendError other call here stage
  | cancelClaimed other call here stage claimed | cancelFree other call here stage free
  | release other call here stage released =>
    exact rests.of_stage here rfl (by simp [stage])
  | wake other call here ready =>
    exact rests.of_update here rfl fun _ => ⟨rfl, fun _ => rfl⟩
  | claim header call idle mem here takes | closeDone header other call closing here
  | failCall other ids call running listed here =>
    exact rests.of_update here rfl fun returned =>
      ⟨returned, fun _ => rfl⟩
  | pass header reader idle next | readErrorIdle idle | receive piece header got routed
  | discard header claim payload received absent | close | fail failer may first
  | failEnd running => exact rests.of_eq rfl
  | readErrorRouted header claim got routed =>
    exact rests.releaseClaim claim .broken
  | receiveInto piece header got other call routed here =>
    apply rests.of_stage here rfl
    apply (steady.held other call here _).2
    rw [routed]
    rfl
  | payloadEnd header claim got routed =>
    exact rests.releaseClaim claim (.received header claim got)
  | collect header claim payload call received mem here =>
    exact rests.collect here

end

/-! ## Safety of the runs -/

/-- The channels of every call are closed at most once, and the call is
completed by its own frames. -/
structure Orderly (client : BlockClient) : Prop where
  once : ∀ id call, client.calls id = some call → call.done.length ≤ 1 ∧ call.readDone ≤ 1
  own : ∀ id call, client.calls id = some call →
    (∀ header, Cause.frame header ∈ call.done → header.reqID = id) ∧
      ∀ frame ∈ call.frames, frame.header.reqID = id

/-- A direct delivery is the whole response: one frame, and not an error. -/
def DeliversWhole (client : BlockClient) : Prop :=
  ∀ id call, client.calls id = some call → call.delivered = true →
    ∃ frame, call.frames = [frame] ∧ frame.header.reqID = id ∧ frame.header.isErr = false

theorem Books.orderly (books : client.Books) : client.Orderly where
  once := by
    intro id call here
    have consistent := books.calls id call here
    have owed := consistent.owed
    have releases := consistent.releases
    exact ⟨by omega, by omega⟩
  own := by
    intro id call here
    have consistent := books.calls id call here
    exact ⟨consistent.causes, fun frame mem =>
      (consistent.frames frame mem).1⟩

theorem Steady.deliversWhole (steady : client.Steady) (books : client.Books)
    : client.DeliversWhole := by
  intro id call here delivered
  obtain ⟨_, frame, only⟩ := steady.single id call here delivered
  have mine := (books.calls id call here).frames frame (only ▸ mem_singleton.mpr rfl)
  exact ⟨frame, only, mine⟩

/-- Every run of allowed steps keeps the channels in order and delivers whole
responses, and once a round trip has returned no further run of allowed steps
touches its buffer. -/
def RunsSafe (maxFrame : Nat) (allowed : BlockClient → ClientEvent → Prop) : Prop :=
  ∀ events final, Along step allowed (start maxFrame) events →
    run step (start maxFrame) events = some final →
      final.Orderly ∧ final.DeliversWhole ∧
        ∀ id dst, final.Rests id dst → ∀ more later,
          Along step allowed final more → run step final more = some later → later.Rests id dst

/-- Every run is orderly, careful or not. -/
theorem orderly_of_run {maxFrame : Nat}
    (reached : run step (start maxFrame) events = some final) : final.Orderly := by
  have books := run_invariant (fun client event next (books : client.Books) (_ : True) taken =>
      books.move (step_move taken))
    (books_start maxFrame) (Along.of_events fun _ _ => trivial) reached
  exact books.orderly

theorem Careful.kept (holds : client.Books ∧ client.Steady)
    (careful : client.Careful event) (taken : client.step event = some next)
    : next.Books ∧ next.Steady :=
  ⟨holds.1.move (step_move taken), holds.2.move holds.1 careful (step_move taken)⟩

/-- Careful runs are safe. -/
theorem runsSafe_of_careful (maxFrame : Nat) : RunsSafe maxFrame Careful := by
  intro events final along reached
  obtain ⟨books, steady⟩ := run_invariant
    (fun _ _ _ holds careful taken => Careful.kept holds careful taken)
    ⟨books_start maxFrame, steady_start maxFrame⟩ along reached
  refine ⟨books.orderly, steady.deliversWhole books, ?_⟩
  intro id dst rests more later careful continued
  -- The buffer rests in every state the continuation passes through.
  have kept : ∀ (client : BlockClient) event (next : BlockClient),
      (client.Books ∧ client.Steady) ∧ client.Rests id dst →
      client.Careful event → client.step event = some next →
      (next.Books ∧ next.Steady) ∧ next.Rests id dst := by
    intro client event next holds allowed taken
    exact ⟨Careful.kept holds.1 allowed taken, holds.2.move holds.1.1 holds.1.2 (step_move taken)⟩
  exact (run_invariant kept ⟨⟨books, steady⟩, rests⟩ careful continued).2

/-- A read of ten bytes after 24 bytes of metadata, answered by one frame. -/
def answer : Header :=
  { reqID := 1, isErr := false, isFinal := true, plen := 34 }

/-- The answer is delivered into the buffer and the call returns. -/
def deliveredRun : List ClientEvent :=
  [.register (some (Padded.blank 10)) 24, .send 1, .header answer,
    .receive (Padded.blank 24), .receive (Padded.replicate 10 7),
    .payloadEnd, .route, .closeDone, .wake 1, .readError, .fail .reader]

theorem deliveredRun_safe : ∃ final, run step (start 100) deliveredRun = some final ∧
      final.DeliversWhole ∧
      (final.calls 1).map (fun call => (call.delivered, call.n)) = some (true, 10) := by
  have observed : (run step (start 100) deliveredRun).map (fun final =>
      (final.calls 1).map fun call => (call.delivered, call.n)) =
        some (some (true, 10)) := by decide +kernel
  obtain ⟨final, reached, delivered⟩ := map_eq_some_iff.mp observed
  have along : Along step Careful (start 100) deliveredRun := by
    decide +kernel
  exact ⟨final, reached, (runsSafe_of_careful 100 deliveredRun final along reached).2.1, delivered⟩

/-- The reader has the metadata of the answer when the send of another call
fails; the failure wakes the first call. -/
def overtakenRun : List ClientEvent :=
  [.register (some (Padded.blank 10)) 24, .send 1, .header answer,
    .receive (Padded.blank 24), .register none 0, .sendError 2,
    .fail (.sender 2), .failCall 1, .wake 1]

theorem overtakenRun_orderly : ∃ final, run step (start 100) overtakenRun = some final ∧
      final.Orderly := by
  have ran : (run step (start 100) overtakenRun).isSome = true := by decide +kernel
  obtain ⟨final, reached⟩ := isSome_iff_exists.mp ran
  exact ⟨final, reached, orderly_of_run reached⟩

/-- The reader then writes into the buffer of a call that has returned. -/
theorem overtaken_not_runsSafe : ¬RunsSafe 100 fun _ _ => True := by
  intro safe
  have observed : (run step (start 100) overtakenRun).map (fun final =>
      (final.calls 1).map fun call =>
        (call.stage, call.dst.map fun dst => dst.get 0)) =
        some (some (.returned, some 0)) ∧
      ((run step (start 100) overtakenRun).bind fun final =>
        (run step final [.receive (Padded.replicate 10 7)]).map fun later =>
          (later.calls 1).map fun call =>
            call.dst.map fun dst => dst.get 0) =
        some (some (some 7)) := by decide +kernel
  obtain ⟨final, reached, before⟩ := map_eq_some_iff.mp observed.1
  obtain ⟨call, here, held⟩ := map_eq_some_iff.mp before
  rw [reached, bind_some] at observed
  obtain ⟨later, continued, after⟩ := map_eq_some_iff.mp observed.2
  simp only [Prod.mk.injEq] at held
  have always : ∀ client : BlockClient, ∀ events, Along step (fun _ _ => True) client events :=
    fun _ _ => Along.of_events fun _ _ => trivial
  obtain ⟨found, there, _, buffer⟩ := (safe overtakenRun final
    (always _ _) reached).2.2 1 call.dst ⟨call, here, held.1, rfl⟩ _ later (always _ _) continued
  rw [there, map_some, some.injEq, buffer, held.2] at after
  exact absurd after (by decide)

end BlockClient

end Cornus.Wire
