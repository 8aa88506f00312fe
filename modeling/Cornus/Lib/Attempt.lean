import Mathlib.Data.List.Basic

/-!
# Loops that stop at the first failure
-/

namespace Cornus

open List

variable {Item Value Fault : Type} {First Second : Type} {first : Except Fault First}
  {next : First → Except Fault Second} {result : Second}

theorem exists_of_bind_ok (done : first >>= next = .ok result) :
    ∃ value, first = .ok value ∧ next value = .ok result := by
  cases first with
  | error cause => cases done
  | ok value => exact ⟨value, rfl, done⟩

theorem exists_of_map_ok {next : First → Second} (done : first.map next = .ok result) :
    ∃ value, first = .ok value ∧ next value = result := by
  cases first with
  | error cause => cases done
  | ok value => exact ⟨value, rfl, Except.ok.inj done⟩

theorem bind_of_ok (given : first = .ok value) : (first >>= next) = next value := by
  rw [given]
  rfl

theorem bind_error_iff {fails : Prop} (later : ∀ value, first = .ok value →
      ((∃ fault, next value = .error fault) ↔ fails)) :
    (∃ fault, first >>= next = .error fault) ↔ (∃ fault, first = .error fault) ∨ fails := by
  cases first with
  | error fault => exact iff_of_true ⟨fault, rfl⟩ (.inl ⟨fault, rfl⟩)
  | ok value =>
    refine (later value rfl).trans (or_iff_right ?_).symm
    rintro ⟨fault, failed⟩
    cases failed

/-- How an attempt ends, by what its failures and its results satisfy. -/
structure Ends (fails : Fault → Prop) (done : Value → Prop)
    (attempt : Except Fault Value) : Prop where
  error : ∀ fault, attempt = .error fault → fails fault
  ok : ∀ value, attempt = .ok value → done value

namespace Ends

variable {fails : Fault → Prop} {done : Value → Prop}

theorem of_ok (holds : done value) : Ends fails done (.ok value) := by
  constructor
  · intro fault failed
    cases failed
  · intro other given
    cases given
    exact holds

theorem of_error (holds : fails fault) : Ends fails done (.error fault) := by
  constructor
  · intro other failed
    cases failed
    exact holds
  · intro value given
    cases given

theorem bind {Next : Type} {after : Next → Prop} {first : Except Fault Value}
    {next : Value → Except Fault Next} (begins : Ends fails done first)
    (goes : ∀ value, done value → Ends fails after (next value)) :
    Ends fails after (first >>= next) := by
  cases first with
  | error fault => exact of_error (begins.error fault rfl)
  | ok value => exact goes value (begins.ok value rfl)

theorem mono (ends : Ends fails done attempt) (follows : ∀ value, done value → weaker value) :
    Ends fails weaker attempt :=
  ⟨ends.error, fun value given => follows value (ends.ok value given)⟩

end Ends

/-- What every item gives, in order, or the first failure. -/
def gatherAll (attempt : Item → Except Fault (List Value)) : List Item → Except Fault (List Value)
  | [] => .ok []
  | item :: items =>
    match attempt item with
    | .error fault => .error fault
    | .ok values =>
      match gatherAll attempt items with
      | .error fault => .error fault
      | .ok rest => .ok (values ++ rest)

variable {attempt : Item → Except Fault (List Value)}

theorem gatherAll_of_ok (gives : ∀ item ∈ items, attempt item = .ok (total item)) :
    gatherAll attempt items = .ok (items.flatMap total) := by
  induction items with
  | nil => rfl
  | cons first rest ih =>
    rw [gatherAll, gives first mem_cons_self,
      ih fun item mem => gives item (mem_cons_of_mem _ mem)]
    rfl

theorem gatherAll_ok (ended : gatherAll attempt items = .ok gathered) :
    ∀ item ∈ items, ∃ values, attempt item = .ok values := by
  induction items generalizing gathered with
  | nil =>
    intro item mem
    cases mem
  | cons first rest ih =>
    rw [gatherAll] at ended
    split at ended
    · cases ended
    rename_i values given
    split at ended
    · cases ended
    rename_i others later
    intro item mem
    rcases mem_cons.mp mem with same | after
    · rw [same]
      exact ⟨values, given⟩
    · exact ih later item after

theorem gatherAll_eq_flatMap (ended : gatherAll attempt items = .ok gathered)
    (gives : ∀ item ∈ items, ∀ values, attempt item = .ok values → values = total item) :
    gathered = items.flatMap total := by
  induction items generalizing gathered with
  | nil =>
    cases ended
    rfl
  | cons first rest ih =>
    rw [gatherAll] at ended
    split at ended
    · cases ended
    rename_i values given
    split at ended <;> cases ended
    rename_i others later
    rw [flatMap_cons, gives first mem_cons_self values given, ih later fun item mem =>
        gives item (mem_cons_of_mem _ mem)]

end Cornus
