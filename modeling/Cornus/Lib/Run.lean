import Mathlib.Data.List.Basic
import Mathlib.Logic.Function.Iterate

/-!
# Runs of a partial transition function

A system is given by a transition function that may refuse an event.  A run
takes a list of events one after the other.  `Along` restricts a run by a
condition on each event and the state it is taken in; the invariant rule then
carries an invariant through every such run.
-/

namespace Cornus.Lib

open List Option

variable {State Event : Type}

def run (step : State → Event → Option State) (state : State) : List Event → Option State
  | [] => some state
  | event :: events => (step state event).bind (run step · events)

/-- Every event of the run meets `allowed` in the state it is taken in. -/
def Along (step : State → Event → Option State)
    (allowed : State → Event → Prop) (state : State) : List Event → Prop
  | [] => True
  | event :: events =>
    allowed state event ∧ ∀ next, step state event = some next → Along step allowed next events

variable {state : State} {events : List Event} {invariant : State → Prop}

/-- A condition that follows from another wherever an invariant of the run
holds. -/
theorem Along.of_invariant (preserved : ∀ state event next, invariant state →
      allowed state event → step state event = some next → invariant next)
    (weaker : ∀ state event, invariant state → allowed state event →
      larger state event) (holds : invariant state)
    (along : Along step allowed state events) : Along step larger state events := by
  induction events generalizing state with
  | nil => trivial
  | cons event events ih =>
    obtain ⟨permitted, later⟩ := along
    refine ⟨weaker state event holds permitted, ?_⟩
    intro next taken
    exact ih (preserved state event next holds permitted taken) (later next taken)

theorem Along.mono (weaker : ∀ state event, allowed state event → larger state event)
    (along : Along step allowed state events) : Along step larger state events := by
  have always : ∀ state event next, True → allowed state event →
      step state event = some next → True := fun _ _ _ _ _ _ => trivial
  exact along.of_invariant always
    (fun state event _ permitted => weaker state event permitted) trivial

theorem Along.of_events {allowed : Event → Prop} (all : ∀ event ∈ events, allowed event) :
    Along step (fun _ => allowed) state events := by
  induction events generalizing state with
  | nil => trivial
  | cons event events ih =>
    refine ⟨all event mem_cons_self, ?_⟩
    intro next _
    apply ih
    intro later mem
    exact all later (mem_cons_of_mem _ mem)

theorem along_cons : Along step allowed state (event :: events) ↔ allowed state event ∧
      ∀ next, step state event = some next → Along step allowed next events :=
  Iff.rfl

theorem Along.append (along : Along step allowed state (events ++ later)) :
    Along step allowed state events ∧ ∀ next, run step state events = some next →
        Along step allowed next later := by
  induction events generalizing state with
  | nil =>
    refine ⟨trivial, fun next reached => ?_⟩
    cases reached
    exact along
  | cons event events ih =>
    obtain ⟨permitted, rest⟩ := along
    refine ⟨⟨permitted, fun next taken =>
      (ih (rest next taken)).1⟩, fun final reached => ?_⟩
    simp only [run, bind_eq_some_iff] at reached
    obtain ⟨next, taken, remaining⟩ := reached
    exact (ih (rest next taken)).2 final remaining

theorem run_append : run step state (events ++ later) =
      (run step state events).bind (run step · later) := by
  induction events generalizing state with
  | nil => rfl
  | cons event events ih =>
    simp only [cons_append, run, bind_assoc, ih]

/-- A decidable condition can be checked along a concrete run. -/
instance Along.decidable {step : State → Event → Option State} {allowed : State → Event → Prop}
    [∀ state event, Decidable (allowed state event)] :
    ∀ state events, Decidable (Along step allowed state events)
  | _, [] => .isTrue trivial
  | state, event :: events =>
    match taken : step state event with
    | none => decidable_of_iff (allowed state event) (by
        simp [along_cons, taken])
    | some next =>
      have : Decidable (Along step allowed next events) :=
        Along.decidable next events
      decidable_of_iff (allowed state event ∧ Along step allowed next events) (by
          simp [along_cons, taken])

/-- The invariant rule. -/
theorem run_invariant (preserved : ∀ state event next, invariant state →
      allowed state event → step state event = some next → invariant next) (holds :
      invariant state) (along : Along step allowed state events)
    (reached : run step state events = some final) : invariant final := by
  induction events generalizing state with
  | nil =>
    simp only [run, some.injEq] at reached
    exact reached ▸ holds
  | cons event events ih =>
    simp only [run, bind_eq_some_iff] at reached
    obtain ⟨next, taken, rest⟩ := reached
    obtain ⟨permitted, later⟩ := along
    have kept := preserved state event next holds permitted taken
    exact ih kept (later next taken) rest

theorem update_eq_iff {Key Value : Type} [DecidableEq Key] {map : Key → Value} {key other : Key}
    {slot value : Value} : Function.update map key slot other = value ↔
      other = key ∧ slot = value ∨ other ≠ key ∧ map other = value := by
  by_cases same : other = key
  · subst same
    simp
  · simp [same]

theorem update_eq_some_iff {Key Value : Type} [DecidableEq Key] {map : Key → Option Value}
    {key other : Key} {value found : Value} :
    Function.update map key (some value) other = some found ↔
      other = key ∧ value = found ∨ other ≠ key ∧ map other = some found := by
  rw [update_eq_iff, some.injEq]

/-- Some number of steps of a total function lead from `start` to `stop`. -/
def Reaches {α : Type} (step : α → α) (start stop : α) : Prop :=
  ∃ steps, step^[steps] start = stop

variable {α : Type}

theorem Reaches.refl {step : α → α} (state : α) : Reaches step state state := ⟨0, rfl⟩

theorem Reaches.head {step : α → α}
    (rest : Reaches step (step start) stop) : Reaches step start stop := by
  obtain ⟨steps, reached⟩ := rest
  exact ⟨steps + 1, reached⟩

theorem Reaches.trans {step : α → α}
    (first : Reaches step start middle) (second : Reaches step middle stop) :
    Reaches step start stop := by
  obtain ⟨early, rfl⟩ := first
  obtain ⟨late, rfl⟩ := second
  exact ⟨late + early, Function.iterate_add_apply step late early start⟩

end Cornus.Lib
