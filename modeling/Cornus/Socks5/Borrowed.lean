import Cornus.Lib.Run

/-!
# A listener that is lent to a proxy

A proxy that `Serve` has started accepts on a listener it does not own.  Its
accept loop, the goroutine that waits for the context and any number of calls of
`Close` run side by side; the one that shuts the proxy down wakes the loop with
a deadline in the past, and the loop takes the deadline away when it leaves.

The goroutine that waits for the context has the number 0, the calls of `Close`
have the others.
-/

namespace Cornus.Socks5

open Lib Function

/-- Where the accept loop stands. -/
inductive LoopAt where
  | accepting
  | accepted (conn : Nat)
  | left
  | finished
deriving DecidableEq

/-- Where a goroutine stands that shuts the proxy down. -/
inductive CloserAt where
  | idle
  | entering
  | waking (conns : List Nat)
  | severing (conns : List Nat)
  | waiting
  | returned
deriving DecidableEq

/-- A listener on loan, and its connections. -/
structure Lent where
  open_ : Bool := true
  (deadline done cancelled : Bool := false)
  (conns handlers severed : List Nat := [])
  loop : LoopAt := .accepting
  closers : Nat → CloserAt := fun _ => .idle

/-- What happens to it. -/
inductive LentEvent where
  | acceptConn (conn : Nat)
  | acceptError
  | track
  | clear
  | handlerDone (conn : Nat)
  | cancel
  | begin_ (closer : Nat)
  | enter (closer : Nat)
  | wake (closer : Nat)
  | sever (closer : Nat)
  | return_ (closer : Nat)

namespace Lent

variable (lent : Lent) (closer : Nat)

def setCloser (place : CloserAt) : Lent :=
  { lent with closers := update lent.closers closer place }

def afterShutdown : CloserAt :=
  if closer = 0 then .returned else .waiting

/-- One step.  `shutdown` is the part from `enter` to `sever`. -/
def step : LentEvent → Option Lent
  | .acceptConn conn =>
    if lent.loop = .accepting ∧ lent.open_ then
      some { lent with loop := .accepted conn }
    else none
  | .acceptError =>
    if lent.loop = .accepting then some { lent with loop := .left } else none
  | .track =>
    match lent.loop with
    | .accepted conn =>
      if lent.done then some { lent with loop := .left }
      else
        some { lent with
               loop := .accepting, conns := conn :: lent.conns,
               handlers := conn :: lent.handlers }
    | _ => none
  | .clear =>
    if lent.loop = .left then
      some { lent with loop := .finished, deadline := false }
    else none
  | .handlerDone conn =>
    if conn ∈ lent.handlers then
      some { lent with conns := lent.conns.erase conn, handlers := lent.handlers.erase conn }
    else none
  | .cancel => some { lent with cancelled := true }
  | .begin_ closer =>
    if lent.closers closer = .idle then
      if closer = 0 then
        if lent.cancelled then some (lent.setCloser 0 .entering) else none
      else
        some ({ lent with cancelled := true }.setCloser closer .entering)
    else none
  | .enter closer =>
    if lent.closers closer = .entering then
      if lent.done then some (lent.setCloser closer (afterShutdown closer))
      else
        some ({ lent with done := true }.setCloser closer (.waking lent.conns))
    else none
  | .wake closer =>
    match lent.closers closer with
    | .waking conns =>
      some ({ lent with deadline := true }.setCloser closer (.severing conns))
    | _ => none
  | .sever closer =>
    match lent.closers closer with
    | .severing conns =>
      some ({ lent with severed := lent.severed ++ conns }.setCloser closer (afterShutdown closer))
    | _ => none
  | .return_ closer =>
    if lent.closers closer = .waiting ∧ lent.loop = .finished ∧
        lent.closers 0 = .returned ∧ lent.handlers = [] then
      some (lent.setCloser closer .returned)
    else none

/-- The accept loop leaves only while the deadline that wakes it is set. -/
def LeavesWoken : LentEvent → Prop
  | .acceptError => lent.deadline = true
  | .track => lent.done = true → lent.deadline = true
  | _ => True

instance (lent : Lent) (event : LentEvent) : Decidable (LeavesWoken lent event) :=
  match event with
  | .acceptError => inferInstanceAs (Decidable (_ = _))
  | .track => inferInstanceAs (Decidable (_ → _))
  | .acceptConn _ | .clear | .handlerDone _ | .cancel | .begin_ _ | .enter _
  | .wake _ | .sever _ | .return_ _ => isTrue trivial

end Lent

/-- The closer has set a deadline and not cleared it. -/
def CloserAt.isWaking : CloserAt → Bool
  | .waking _ => true
  | _ => false

/-- No closer is at that point. -/
def Lent.NoWaker (lent : Lent) : Prop :=
  ∀ closer, (lent.closers closer).isWaking = false

/-- What holds while the loop leaves woken: the deadline is set once, before the
loop leaves. -/
structure Lends (lent : Lent) : Prop where
  stays : lent.open_ = true
  before : lent.done = false → lent.deadline = false ∧ lent.NoWaker
  one : ∀ first second, (lent.closers first).isWaking = true →
    (lent.closers second).isWaking = true → first = second
  woken : lent.deadline = true ∨ lent.loop = .left ∨ lent.loop = .finished →
    lent.done = true ∧ lent.NoWaker
  cleared : lent.loop = .finished → lent.deadline = false
  returned : ∀ closer, closer ≠ 0 → lent.closers closer = .returned → lent.loop = .finished

section

variable (lends : Lends lent)
include lends

theorem Lends.frame (cancelled : Bool) (conns handlers severed : List Nat) :
    Lends { lent with cancelled, conns, handlers, severed } :=
  { lends with }

theorem Lends.setCloser (awake : place.isWaking = false)
    (back : closer ≠ 0 → place = .returned → lent.loop = .finished) :
    Lends (lent.setCloser closer place) := by
  have others : ∀ other, ((lent.setCloser closer place).closers other).isWaking = true →
        (lent.closers other).isWaking = true := by
    intro other waking
    simp only [Lent.setCloser, update_apply] at waking
    split at waking
    · rw [awake] at waking
      cases waking
    · exact waking
  have none_ : lent.NoWaker → (lent.setCloser closer place).NoWaker := by
    intro noWaker other
    apply Bool.eq_false_iff.mpr
    intro waking
    have before := others other waking
    rw [noWaker other] at before
    cases before
  refine ⟨lends.stays, ?_, ?_, ?_, lends.cleared, ?_⟩
  · intro running
    exact (lends.before running).imp_right none_
  · intro first second firstWakes secondWakes
    exact lends.one first second (others first firstWakes) (others second secondWakes)
  · intro set_
    exact (lends.woken set_).imp_right none_
  · intro other some_ gone
    simp only [Lent.setCloser, update_apply] at gone
    split at gone
    · rename_i same
      exact back (same ▸ some_) gone
    · exact lends.returned other some_ gone

theorem Lends.setLoop {conns handlers : List Nat} (running : lent.loop ≠ .finished)
    (goes : place ≠ .left ∧ place ≠ .finished) :
    Lends { lent with loop := place, conns, handlers } := by
  refine { lends with woken := ?_, cleared := ?_, returned := ?_ }
  · intro set_
    rcases set_ with deadline | left | finished
    · exact lends.woken (.inl deadline)
    · exact absurd left goes.1
    · exact absurd finished goes.2
  · intro finished
    exact absurd finished goes.2
  · intro closer some_ gone
    exact absurd (lends.returned closer some_ gone) running

theorem Lends.leave (running : lent.loop ≠ .finished)
    (deadline : lent.deadline = true) : Lends { lent with loop := .left } := by
  refine { lends with woken := ?_, cleared := ?_, returned := ?_ }
  · intro _
    exact lends.woken (.inl deadline)
  · intro finished
    cases finished
  · intro closer some_ gone
    exact absurd (lends.returned closer some_ gone) running

theorem Lends.afterShutdown : Lends (lent.setCloser closer (Lent.afterShutdown closer)) := by
  rw [Lent.afterShutdown]
  split
  · rename_i context
    exact lends.setCloser rfl fun some_ => absurd context some_
  · exact lends.setCloser rfl (by simp)

theorem Lends.enter (running : lent.done = false) (conns : List Nat) :
    Lends ({ lent with done := true }.setCloser closer (.waking conns)) := by
  obtain ⟨unset, noWaker⟩ := lends.before running
  have unwoken : ¬(lent.deadline = true ∨ lent.loop = .left ∨ lent.loop = .finished) := by
    intro set_
    have done := (lends.woken set_).1
    rw [running] at done
    cases done
  have only : ∀ other, (({ lent with done := true }.setCloser closer
      (.waking conns)).closers other).isWaking = true → other = closer := by
    intro other waking
    by_contra ne
    simp only [Lent.setCloser, update_of_ne ne] at waking
    rw [noWaker other] at waking
    cases waking
  refine ⟨lends.stays, ?_, ?_, fun set_ => absurd set_ unwoken, lends.cleared, ?_⟩
  · intro done
    cases done
  · intro first second firstWakes secondWakes
    rw [only first firstWakes, only second secondWakes]
  · intro other some_ gone
    simp only [Lent.setCloser, update_apply] at gone
    split at gone
    · cases gone
    · exact lends.returned other some_ gone

theorem Lends.wake (waking : (lent.closers closer).isWaking = true) (conns : List Nat) :
    Lends ({ lent with deadline := true }.setCloser closer (.severing conns)) := by
  have someWaker : ¬lent.NoWaker := by
    intro noWaker
    rw [noWaker closer] at waking
    cases waking
  have done : lent.done = true := by
    by_contra running
    exact someWaker (lends.before (by simpa using running)).2
  have unwoken : ¬(lent.deadline = true ∨ lent.loop = .left ∨ lent.loop = .finished) :=
    fun set_ => someWaker (lends.woken set_).2
  have noWaker : ({ lent with deadline := true }.setCloser closer (.severing conns)).NoWaker := by
    intro other
    apply Bool.eq_false_iff.mpr
    intro stillWaking
    by_cases same : other = closer
    · simp [Lent.setCloser, same, CloserAt.isWaking] at stillWaking
    · simp only [Lent.setCloser, update_of_ne same] at stillWaking
      exact same (lends.one other closer stillWaking waking)
  refine ⟨lends.stays, ?_, ?_, fun _ => ⟨done, noWaker⟩, ?_, ?_⟩
  · intro running
    have both : lent.done = false := running
    rw [done] at both
    cases both
  · intro first second firstWakes
    rw [noWaker first] at firstWakes
    cases firstWakes
  · intro finished
    exact absurd (.inr (.inr finished)) unwoken
  · intro other some_ gone
    simp only [Lent.setCloser, update_apply] at gone
    split at gone
    · cases gone
    · exact lends.returned other some_ gone

/-- One event keeps what holds while the loop leaves woken. -/
theorem Lends.step (allowed : lent.LeavesWoken event) {next : Lent}
    (taken : lent.step event = some next) : Lends next := by
  cases event with
  | acceptConn conn =>
    simp only [Lent.step] at taken
    split at taken <;> cases taken
    rename_i ready
    exact lends.setLoop (by simp [ready.1]) (by simp)
  | acceptError =>
    simp only [Lent.step] at taken
    split at taken <;> cases taken
    rename_i ready
    exact lends.leave (by simp [ready]) allowed
  | track =>
    simp only [Lent.step] at taken
    split at taken
    · rename_i conn ready
      split at taken
      · rename_i done
        cases taken
        exact lends.leave (by simp [ready]) (allowed done)
      · cases taken
        exact lends.setLoop (by simp [ready]) (by simp)
    · cases taken
  | clear =>
    simp only [Lent.step] at taken
    split at taken <;> cases taken
    rename_i left
    obtain ⟨done, noWaker⟩ := lends.woken (.inr (.inl left))
    refine ⟨lends.stays, fun _ => ⟨rfl, noWaker⟩, lends.one,
      fun _ => ⟨done, noWaker⟩, fun _ => rfl, fun _ _ _ => rfl⟩
  | handlerDone conn =>
    simp only [Lent.step] at taken
    split at taken <;> cases taken
    exact lends.frame _ _ _ _
  | cancel =>
    cases taken
    exact lends.frame _ _ _ _
  | begin_ closer =>
    simp only [Lent.step] at taken
    split at taken
    · split at taken
      · split at taken <;> cases taken
        exact lends.setCloser rfl (by simp)
      · cases taken
        exact (lends.frame _ _ _ _).setCloser rfl (by simp)
    · cases taken
  | enter closer =>
    simp only [Lent.step] at taken
    split at taken
    · split at taken
      · cases taken
        exact lends.afterShutdown
      · rename_i running
        cases taken
        exact lends.enter (by simpa using running) _
    · cases taken
  | wake closer =>
    simp only [Lent.step] at taken
    split at taken <;> cases taken
    rename_i conns waking
    exact lends.wake (by rw [waking]; rfl) _
  | sever closer =>
    simp only [Lent.step] at taken
    split at taken <;> cases taken
    exact (lends.frame _ _ _ _).afterShutdown
  | return_ closer =>
    simp only [Lent.step] at taken
    split at taken <;> cases taken
    rename_i ready
    exact lends.setCloser rfl fun _ _ => ready.2.1

end

/-- In every run in which the accept loop leaves woken, a listener is open and
without a deadline when a call of `Close` has returned. -/
theorem lent_back_usable {events : List LentEvent} {lent : Lent}
    (along : Along Lent.step Lent.LeavesWoken {} events)
    (reached : run Lent.step {} events = some lent) {closer : Nat}
    (isClose : closer ≠ 0) (returned : lent.closers closer = .returned) :
    lent.open_ = true ∧ lent.deadline = false := by
  have start : Lends {} := by
    refine ⟨rfl, fun _ => ⟨rfl, fun _ => rfl⟩, ?_, ?_, ?_, ?_⟩
    · intro first second waking
      cases waking
    · intro set_
      simp at set_
    · intro finished
      cases finished
    · intro closer _ gone
      cases gone
  have final : Lends lent := by
    apply run_invariant _ start along reached
    intro state event next lends allowed taken
    exact lends.step allowed taken
  exact ⟨final.stays, final.cleared (final.returned closer isClose returned)⟩

/-- The loop is woken in its accept. -/
theorem wokenLoop_usable : ∃ lent, run Lent.step {} [.begin_ 1, .enter 1, .wake 1, .acceptError,
        .clear, .sever 1, .begin_ 0, .enter 0, .return_ 1] = some lent ∧
      lent.open_ = true ∧ lent.deadline = false := by
  obtain ⟨lent, reached⟩ := Option.isSome_iff_exists.mp
    (by decide : (run Lent.step {} [.begin_ 1, .enter 1, .wake 1, .acceptError,
      .clear, .sever 1, .begin_ 0, .enter 0, .return_ 1]).isSome = true)
  have returned : (run Lent.step {} [.begin_ 1, .enter 1, .wake 1, .acceptError,
      .clear, .sever 1, .begin_ 0, .enter 0, .return_ 1]).map
        (fun lent => lent.closers 1) = some .returned := by
    decide
  rw [reached] at returned
  exact ⟨lent, reached, lent_back_usable (by decide) reached
    (by decide : (1 : Nat) ≠ 0) (Option.some.inj returned)⟩

/-- The loop finds the proxy done before it is woken: the deadline comes after
it was taken away. -/
theorem refusedConn_leaves_deadline :
    (run Lent.step {} [.acceptConn 7, .begin_ 1, .enter 1, .track, .clear,
        .wake 1, .sever 1, .begin_ 0, .enter 0, .return_ 1]).map
      (fun lent => (lent.closers 1, lent.deadline)) = some (.returned, true) := by
  decide

end Cornus.Socks5
