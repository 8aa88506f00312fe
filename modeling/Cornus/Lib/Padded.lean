import Mathlib.Tactic.Common

/-!
# Finite sequences padded with a default value

A `Padded α` is a finite sequence that may be read at every position: past its
length it holds the default value.  Byte strings with zero-filled holes,
bitmaps whose missing words read as clear and tables of unknown hashes are all
instances.  Writing past the end therefore never needs a separate rule for the
gap, and two sequences are equal as soon as they have one length and agree
below it.
-/

namespace Cornus

/-- A sequence of length `len` that reads as `default` from `len` on. -/
structure Padded (α : Type) [Inhabited α] where
  len : Nat
  get : Nat → α
  pad : ∀ index, len ≤ index → get index = default

namespace Padded

variable {α : Type} [Inhabited α]

theorem ext_get {right : Padded α} (length : left.len = right.len)
    (agree : ∀ index, index < left.len → left.get index = right.get index) : left = right := by
  have everywhere : left.get = right.get := by
    funext index
    by_cases below : index < left.len
    · exact agree index below
    · rw [left.pad index (by omega), right.pad index (by omega)]
  cases left
  cases right
  cases length
  cases everywhere
  rfl

variable (length : Nat)

/-- The sequence of `length` default values. -/
def blank : Padded α :=
  { len := length
    get := fun _ => default
    pad := fun _ _ => rfl }

@[simp] theorem blank_len : (blank length : Padded α).len = length := rfl

@[simp] theorem blank_get (length index : Nat) :
    (blank length : Padded α).get index = default := rfl

instance : Inhabited (Padded α) := ⟨blank 0⟩

def replicate (value : α) : Padded α :=
  { len := length
    get := fun index => if index < length then value else default
    pad := fun _ past => if_neg (Nat.not_lt.mpr past) }

variable (items : Padded α)

/-- Cut or extend a sequence to exactly `length` elements. -/
def resize (length : Nat) : Padded α :=
  { len := length
    get := fun index => if index < length then items.get index else default
    pad := fun index past => by simp [Nat.not_lt.mpr past] }

@[simp] theorem resize_len (length : Nat) : (items.resize length).len = length := rfl

theorem resize_get (length index : Nat) : (items.resize length).get index =
      if index < length then items.get index else default := rfl

variable {length index : Nat}

theorem resize_get_of_lt (below : index < length) :
    (items.resize length).get index = items.get index := by
  simp [resize_get, below]

theorem resize_get_of_le (larger : items.len ≤ length) (index : Nat) :
    (items.resize length).get index = items.get index := by
  by_cases below : index < length
  · exact resize_get_of_lt items below
  · rw [resize_get, if_neg below, items.pad index (by omega)]

/-- Overwrite the positions from `start` on with `source`, extending the
sequence when the source reaches past its end. -/
def splice (start : Nat) (source : Padded α) : Padded α :=
  { len := max items.len (start + source.len)
    get := fun index =>
      if start ≤ index ∧ index < start + source.len then
        source.get (index - start)
      else items.get index
    pad := fun index past => by
      have outside : ¬(start ≤ index ∧ index < start + source.len) := by omega
      rw [if_neg outside, items.pad index (by omega)] }

@[simp] theorem splice_len (start : Nat) (source : Padded α) :
    (items.splice start source).len = max items.len (start + source.len) := rfl

theorem splice_get (start : Nat) (source : Padded α) (index : Nat) :
    (items.splice start source).get index = if start ≤ index ∧ index < start + source.len then
        source.get (index - start)
      else items.get index := rfl

theorem splice_get_inside (above : start ≤ index) (below : index < start + source.len) :
    (items.splice start source).get index = source.get (index - start) := by
  simp [splice_get, above, below]

theorem splice_get_outside (outside : ¬(start ≤ index ∧ index < start + source.len)) :
    (items.splice start source).get index = items.get index := by
  rw [splice_get, if_neg outside]

def slice (start length : Nat) : Padded α :=
  { len := length
    get := fun index =>
      if index < length then items.get (start + index) else default
    pad := fun index past => by simp [Nat.not_lt.mpr past] }

@[simp] theorem slice_len (start length : Nat) : (items.slice start length).len = length := rfl

theorem slice_get (start length index : Nat) : (items.slice start length).get index =
      if index < length then items.get (start + index) else default := rfl

theorem slice_get_of_lt (below : index < length) :
    (items.slice start length).get index = items.get (start + index) := by
  simp [slice_get, below]

variable (position : Nat) (value : α)

def set : Padded α :=
  { len := items.len
    get := fun index =>
      if index = position ∧ position < items.len then value
      else items.get index
    pad := fun index past => by
      have outside : ¬(index = position ∧ position < items.len) := by omega
      rw [if_neg outside, items.pad index past] }

@[simp] theorem set_len : (items.set position value).len = items.len := rfl

theorem set_get (index : Nat) :
    (items.set position value).get index = if index = position ∧ position < items.len then value
      else items.get index := rfl

def setRange (items : Padded α) (first : Nat) (count : Nat) (value : α) : Padded α :=
  match count with
  | 0 => items
  | count + 1 => (items.set first value).setRange (first + 1) count value

variable (first count : Nat)

theorem setRange_get (value : α) (index : Nat) : (items.setRange first count value).get index =
      if first ≤ index ∧ index < first + count ∧ index < items.len then value
      else items.get index := by
  induction count generalizing items first with
  | zero =>
    have outside : ¬(first ≤ index ∧ index < first + 0 ∧ index < items.len) := by omega
    rw [if_neg outside]
    rfl
  | succ count ih =>
    rw [setRange, ih, set_len, set_get]
    by_cases here : index = first
    · subst here
      by_cases addressable : index < items.len
      · simp [addressable]
      · simp [addressable]
    · have shifted : (first + 1 ≤ index ∧ index < first + 1 + count ∧
          index < items.len) ↔ (first ≤ index ∧
            index < first + (count + 1) ∧ index < items.len) := by omega
      simp only [shifted, here, false_and, if_false]

def allRange (holds : Nat → Bool) (first : Nat) (count : Nat) : Bool :=
  match count with
  | 0 => true
  | count + 1 => holds first && allRange holds (first + 1) count

theorem allRange_eq_true_iff (holds : Nat → Bool) (first count : Nat) :
    allRange holds first count = true ↔
      ∀ index, first ≤ index → index < first + count → holds index = true := by
  induction count generalizing first with
  | zero =>
    simp only [allRange, true_iff]
    intro index above below
    omega
  | succ count ih =>
    simp only [allRange, Bool.and_eq_true, ih]
    constructor
    · rintro ⟨head, tail⟩ index above below
      rcases Nat.eq_or_lt_of_le above with same | later
      · rw [← same]
        exact head
      · exact tail index later (by omega)
    · intro every
      exact ⟨every first (by omega) (by omega), fun index above below =>
        every index (by omega) (by omega)⟩

theorem eq_iff_allRange [DecidableEq α] (left right : Padded α) : (left.len = right.len ∧
      allRange (fun index => left.get index == right.get index) 0
        left.len = true) ↔ left = right := by
  simp only [allRange_eq_true_iff, beq_iff_eq]
  constructor
  · rintro ⟨length, same⟩
    apply ext_get length
    intro index below
    exact same index (Nat.zero_le _) (by omega)
  · rintro rfl
    exact ⟨rfl, fun _ _ _ => rfl⟩

instance [DecidableEq α] : DecidableEq (Padded α) := fun left right =>
  decidable_of_iff _ (eq_iff_allRange left right)

end Padded

end Cornus
