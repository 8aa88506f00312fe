import Cornus.Lib.Run

/-!
# Side-channels of a tunnel start

A client opens a side-channel, whose handler waits in `registerChannel`, and a start
takes it with `claimChannel`.  The two share the table entry and the `done` channel
only, and the handler's time limit runs on whatever the start does.
-/

namespace Cornus.Server

open Function Lib Option

/-- A session and what its channel is for. -/
structure ChannelKey where
  (name purpose : String)
deriving DecidableEq

/-- Where the handler of a channel stands: in the select of `registerChannel`, at the
`dropChannel` after its time limit, at its deferred `Close`, or returned. -/
inductive Handler where
  | waiting
  | expired
  | leaving
  | returned
deriving DecidableEq

/-- A `pendingChannel` with its handler and every start that has claimed it. -/
structure PendingChannel where
  key : ChannelKey
  handler : Handler := .waiting
  (done closed : Bool := false)
  claimers : List Nat := []
deriving DecidableEq

/-- The table of channels that wait to be taken. -/
structure Channels where
  channels : ChannelKey → Option Nat := fun _ => none
  opened : Nat → Option PendingChannel := fun _ => none

/-- The time limit fires at any time of a wait; the client stays connected. -/
inductive ChannelEvent where
  | register (id : Nat) (key : ChannelKey)
  | wake (id : Nat)
  | expire (id : Nat)
  | drop (id : Nat)
  | close (id : Nat)
  | claim (start : Nat) (key : ChannelKey)
  | release (start id : Nat)

namespace Channels

variable (table : Channels)

/-- A change of one channel. -/
def change (id : Nat) (turn : PendingChannel → Option PendingChannel) : Option Channels :=
  ((table.opened id).bind turn).map fun channel =>
    { table with opened := update table.opened id (some channel) }

/-- The table without the key. -/
def forget (key : ChannelKey) : Channels :=
  { table with channels := update table.channels key none }

/-- The channel still pending under the key is closed. -/
def closeStale (key : ChannelKey) : Option Channels :=
  match table.channels key with
  | some old => table.change old fun channel => some { channel with closed := true }
  | none => some table

/-- The channel takes the key. -/
def publish (id : Nat) (key : ChannelKey) : Channels where
  channels := update table.channels key (some id)
  opened := update table.opened id (some { key })

/-- What `registerChannel` does under the lock. -/
def registerChannel (id : Nat) (key : ChannelKey) : Option Channels :=
  (table.closeStale key).map (·.publish id key)

/-- The key goes only if it is still the channel's. -/
def dropChannel (id : Nat) (key : ChannelKey) : Channels :=
  if table.channels key = some id then table.forget key else table

/-- One attempt of `waitForChannel`; without a channel the start polls on or gives up. -/
def claimChannel (start : Nat) (key : ChannelKey) : Option Channels :=
  match table.channels key with
  | none => some table
  | some id => (table.forget key).change id fun channel =>
      some { channel with claimers := start :: channel.claimers }

/-- The table after an event. -/
def step : ChannelEvent → Option Channels
  | .register id key => if table.opened id = none then table.registerChannel id key else none
  | .wake id => table.change id fun channel =>
    if channel.handler = .waiting ∧ channel.done then some { channel with handler := .leaving }
    else none
  | .expire id => table.change id fun channel =>
    if channel.handler = .waiting then some { channel with handler := .expired } else none
  | .drop id => (table.opened id).bind fun channel =>
    (table.dropChannel id channel.key).change id fun channel =>
      if channel.handler = .expired then some { channel with handler := .leaving } else none
  | .close id => table.change id fun channel =>
    if channel.handler = .leaving then some { channel with handler := .returned, closed := true }
    else none
  | .claim start key => table.claimChannel start key
  | .release start id => table.change id fun channel =>
    if start ∈ channel.claimers ∧ !channel.done then some { channel with done := true } else none

/-- The time limit of a channel fires neither between its claim and its release nor just
before a claim. -/
def timely : ChannelEvent → Bool
  | .expire id => (table.opened id).all fun channel => channel.claimers.isEmpty || channel.done
  | .claim _ key => ((table.channels key).bind table.opened).all (·.handler = .waiting)
  | _ => true

end Channels

/-- At most one start has a channel, until its release the handler waits and the
connection is open, and an entry of the table is a channel that no start has. -/
structure Channels.Sound (table : Channels) : Prop where
  once : ∀ id channel, table.opened id = some channel → channel.claimers.length ≤ 1
  waits : ∀ id channel, table.opened id = some channel → channel.claimers ≠ [] →
    channel.done = false → channel.handler = .waiting ∧ channel.closed = false
  known : ∀ key id, table.channels key = some id → table.opened id ≠ none
  listed : ∀ key id channel, table.channels key = some id → table.opened id = some channel →
    channel.key = key ∧ channel.claimers = [] ∧ channel.done = false ∧ channel.closed = false ∧
      (channel.handler = .waiting ∨ channel.handler = .expired)

variable {table : Channels} {id : Nat}

theorem Channels.change_spec (taken : table.change id turn = some next) :
    ∃ old new, table.opened id = some old ∧ turn old = some new ∧
      next = { table with opened := update table.opened id (some new) } := by
  obtain ⟨new, made, rfl⟩ := map_eq_some_iff.mp taken
  obtain ⟨old, found, turned⟩ := bind_eq_some_iff.mp made
  exact ⟨old, new, found, turned, rfl⟩

theorem Channels.Sound.registerChannel (sound : table.Sound) (new : table.opened id = none)
    (taken : table.registerChannel id key = some next) : next.Sound := by
  obtain ⟨once, waits, known, listed⟩ := sound
  obtain ⟨closing, closed, rfl⟩ := map_eq_some_iff.mp taken
  unfold closeStale at closed
  unfold publish
  split at closed
  · obtain ⟨old, _, found, turned, rfl⟩ := change_spec closed
    constructor <;> grind [update_apply]
  · cases closed
    constructor <;> grind [update_apply]

theorem Channels.Sound.drop (sound : table.Sound) (taken : table.step (.drop id) = some next) :
    next.Sound := by
  obtain ⟨once, waits, known, listed⟩ := sound
  obtain ⟨channel, held, taken⟩ := bind_eq_some_iff.mp taken
  unfold dropChannel Channels.forget at taken
  split_ifs at taken with entry
  all_goals
    obtain ⟨old, _, found, turned, rfl⟩ := change_spec taken
    constructor <;> grind [update_apply]

theorem Channels.Sound.claim (sound : table.Sound) (timely : table.timely (.claim start key))
    (taken : table.step (.claim start key) = some next) : next.Sound := by
  have ⟨once, waits, known, listed⟩ := sound
  simp only [Channels.step, claimChannel, Channels.forget, Channels.timely] at taken timely
  split at taken
  · cases taken
    exact sound
  · obtain ⟨old, _, found, turned, rfl⟩ := change_spec taken
    constructor <;> grind [update_apply]

/-- Every timely event keeps the table sound. -/
theorem Channels.Sound.step (sound : table.Sound) (timely : table.timely event)
    (taken : table.step event = some next) : next.Sound := by
  have ⟨once, waits, known, listed⟩ := sound
  cases event with
  | register id key =>
    simp only [Channels.step] at taken
    split_ifs at taken with new
    exact sound.registerChannel new taken
  | wake id =>
    obtain ⟨old, _, found, turned, rfl⟩ := change_spec taken
    constructor <;> grind [update_apply]
  | expire id =>
    obtain ⟨old, _, found, turned, rfl⟩ := change_spec taken
    simp only [Channels.timely] at timely
    constructor <;> grind [update_apply]
  | drop id => exact sound.drop taken
  | close id =>
    obtain ⟨old, _, found, turned, rfl⟩ := change_spec taken
    constructor <;> grind [update_apply]
  | claim start key => exact sound.claim timely taken
  | release start id =>
    obtain ⟨old, _, found, turned, rfl⟩ := change_spec taken
    constructor <;> grind [update_apply]

/-- While every claim and every time limit is timely, a channel has at most one claimer,
is open until its release, and is out of the table once its handler has returned. -/
theorem timely_channels (events : List ChannelEvent) (final : Channels)
    (timely : Along Channels.step (fun table event => table.timely event) {} events)
    (reached : run Channels.step {} events = some final) (id : Nat) (channel : PendingChannel)
    (opened : final.opened id = some channel) : channel.claimers.length ≤ 1 ∧
      (channel.claimers ≠ [] → channel.done = false → channel.closed = false) ∧
      (channel.handler = .returned → ∀ key, final.channels key ≠ some id) := by
  have sound : final.Sound := by
    refine run_invariant (fun _ _ _ sound timely taken => sound.step timely taken) ?_ timely reached
    constructor <;> simp
  refine ⟨sound.once id channel opened, fun claimed held => ?_, fun returned key entry => ?_⟩
  · exact (sound.waits id channel opened claimed held).2
  · obtain ⟨_, _, _, _, inside⟩ := sound.listed key id channel entry opened
    simp [returned] at inside

def agentKey : ChannelKey := ⟨"web", "ssh-agent"⟩

/-- One channel is claimed, released and closed while another meets its time limit. -/
def timelyRun : List ChannelEvent :=
  [.register 0 agentKey, .claim 0 agentKey, .register 1 agentKey, .release 0 0, .expire 1, .wake 0,
    .close 0]

theorem timelyRun_channels : ∃ final, run Channels.step {} timelyRun = some final ∧
    final.channels agentKey ≠ some 0 :=
  ⟨_, rfl, (timely_channels timelyRun _ (by decide +kernel) rfl 0 _ rfl).2.2 rfl agentKey⟩

/-- The time limit closes the connection that the start is using. -/
theorem expired_channels : (run Channels.step {} [.register 0 agentKey, .claim 0 agentKey,
      .expire 0, .drop 0, .close 0]).map (fun table => (table.opened 0).map fun channel =>
        (channel.claimers, channel.done, channel.closed)) = some (some ([0], false, true)) := by
  decide +kernel

end Cornus.Server
