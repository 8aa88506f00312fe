import Cornus.Auth.ScopeMap

/-!
# Paths into nested claims

The search of `lookupPath` finds every cut of a dotted name into keys, and of
several it takes the one with the longest keys first.
-/

namespace Cornus.Auth

open List

variable {Num : Type}

/-- Keys of the given numbers of segments lead from a value to another. -/
inductive Leads : Value Num → List String → List Nat → Value Num → Prop where
  | here (value : Value Num) : Leads value [] [] value
  | into {members : Object Num} {parts : List String} {count : Nat} {value found : Value Num}
      {lengths : List Nat} (within : count < parts.length)
      (has : members.lookup (".".intercalate (parts.take (count + 1))) = some value)
      (onward : Leads value (parts.drop (count + 1)) lengths found) :
      Leads (.obj members) parts ((count + 1) :: lengths) found

/-- A value at the end of the cut whose sequence of key lengths is the greatest. -/
def LeadsFirst (value : Value Num) (parts : List String) (found : Value Num) : Prop :=
  ∃ lengths, Leads value parts lengths found ∧
    ∀ other result, Leads value parts other result → other = lengths ∨ Lex (· < ·) other lengths

theorem findSome_descending {at_ : Nat → Option Found}
    (first : (range size).reverse.findSome? at_ = some found) : ∃ count < size,
      at_ count = some found ∧ ∀ later, count < later → later < size → at_ later = none := by
  induction size with
  | zero => cases first
  | succ size ih =>
    rw [range_succ, reverse_append, reverse_singleton, singleton_append, findSome?_cons] at first
    cases last : at_ size with
    | some value =>
      rw [last] at first
      exact ⟨size, Nat.lt_succ_self _, last.trans first, fun later above below => by omega⟩
    | none =>
      rw [last] at first
      obtain ⟨count, below, here, none⟩ := ih first
      refine ⟨count, Nat.lt_succ_of_lt below, here, fun later above within => ?_⟩
      obtain rfl | earlier := Nat.eq_or_lt_of_le (Nat.le_of_lt_succ within)
      · exact last
      · exact none later above earlier

theorem lookupPath_nil {value : Value Num} :
    (∀ found, lookupPath fuel value [] = some found → LeadsFirst value [] found) ∧
      (lookupPath fuel value [] = none → ∀ lengths found, ¬Leads value [] lengths found) := by
  rw [lookupPath]
  refine ⟨fun found same => ?_, fun missing => absurd missing (Option.some_ne_none _)⟩
  obtain rfl := Option.some.inj same
  refine ⟨[], .here value, fun other result leads => ?_⟩
  cases leads with
  | here => exact .inl rfl
  | into within => exact absurd within (Nat.not_lt_zero _)

theorem lookupPath_enough {value : Value Num} {parts : List String}
    (enough : parts.length ≤ fuel) (least : parts.length ≤ more) :
    lookupPath fuel value parts = lookupPath more value parts := by
  induction fuel generalizing more value parts with
  | zero =>
    obtain rfl := length_eq_zero_iff.mp (Nat.le_zero.mp enough)
    rw [lookupPath, lookupPath]
  | succ fuel ih =>
    cases parts with
    | nil => rw [lookupPath, lookupPath]
    | cons part parts =>
      rw [length_cons] at enough least
      obtain ⟨more, rfl⟩ := Nat.exists_eq_add_of_le' (Nat.le_of_add_left_le least)
      cases value
      case obj members =>
        rw [lookupPath, lookupPath]
        · congr 1
          funext count
          congr 1
          funext value
          refine ih ?_ ?_ <;> simp only [drop_succ_cons, length_drop] <;> omega
        all_goals exact cons_ne_nil _ _
      all_goals rfl

/-- With a step for every part the search succeeds exactly where a cut leads
somewhere, and takes the greatest one. -/
theorem lookupPath_spec {value : Value Num} (enough : parts.length ≤ fuel) :
    (∀ found, lookupPath fuel value parts = some found → LeadsFirst value parts found) ∧
      (lookupPath fuel value parts = none → ∀ lengths found, ¬Leads value parts lengths found) := by
  induction fuel generalizing value parts with
  | zero =>
    obtain rfl := length_eq_zero_iff.mp (Nat.le_zero.mp enough)
    exact lookupPath_nil
  | succ fuel ih =>
    cases parts with
    | nil => exact lookupPath_nil
    | cons part rest =>
      have shorter : ∀ count, ((part :: rest).drop (count + 1)).length ≤ fuel := by
        intro count
        rw [length_cons] at enough
        rw [drop_succ_cons, length_drop]
        omega
      cases value
      case obj members =>
        rw [lookupPath]
        · constructor
          · intro found first
            obtain ⟨count, within, here, none⟩ := findSome_descending first
            obtain ⟨value, has, onward⟩ := Option.bind_eq_some_iff.mp here
            obtain ⟨lengths, leads, greatest⟩ := (ih (shorter count)).1 found onward
            refine ⟨(count + 1) :: lengths, .into within has leads, fun other result reached => ?_⟩
            cases reached with
            | @into _ _ later _ _ _ below holds further =>
              obtain earlier | rfl | above := Nat.lt_trichotomy later count
              · exact .inr (.rel (Nat.succ_lt_succ earlier))
              · obtain rfl := Option.some.inj (has.symm.trans holds)
                exact (greatest _ _ further).imp (congrArg _) .cons
              · have missing := none later above below
                rw [holds] at missing
                exact absurd further ((ih (shorter later)).2 missing _ _)
          · intro missing lengths found reached
            cases reached with
            | @into _ _ count _ _ _ within holds further =>
              have failed := findSome?_eq_none_iff.mp missing count
                (mem_reverse.mpr (mem_range.mpr within))
              rw [holds] at failed
              exact (ih (shorter count)).2 failed _ _ further
        · exact cons_ne_nil _ _
      all_goals
        refine ⟨fun found first => ?_, fun missing lengths found reached => ?_⟩
        · exact absurd first.symm (Option.some_ne_none found)
        · cases reached

/-- `lookup`: the literal name first, then the greatest cut of the dotted name, in as
many steps as there are parts. -/
theorem lookupClaim_found (claims : Object Num) (name : String) :
    (∀ value, claims.lookup name = some value → lookupClaim claims name = some value) ∧
      (claims.lookup name = none →
        ((lookupClaim claims name).isSome ↔
          ∃ lengths found, Leads (.obj claims) (splitOnChar '.' name) lengths found) ∧
        ∀ found, lookupClaim claims name = some found →
          LeadsFirst (.obj claims) (splitOnChar '.' name) found) ∧
      ∀ fuel, (splitOnChar '.' name).length ≤ fuel →
        lookupPath fuel (.obj claims) (splitOnChar '.' name) =
          lookupPath (splitOnChar '.' name).length (.obj claims) (splitOnChar '.' name) := by
  refine ⟨fun value has => by rw [lookupClaim, has], fun missing => ?_,
    fun fuel enough => lookupPath_enough enough (Nat.le_refl _)⟩
  have searched : lookupClaim claims name =
      lookupPath (splitOnChar '.' name).length (.obj claims) (splitOnChar '.' name) := by
    rw [lookupClaim, missing]
    dsimp only
    split_ifs with single
    · obtain ⟨part, only⟩ := length_eq_one_iff.mp single
      have joined : ".".intercalate [part] = name := only ▸ intercalate_splitOnChar '.' name
      rw [only]
      simp [lookupPath, joined, missing]
    · rfl
  rw [searched]
  obtain ⟨first, nowhere⟩ :=
    @lookupPath_spec _ _ _ (.obj claims) (Nat.le_refl (splitOnChar '.' name).length)
  refine ⟨⟨fun found => ?_, fun ⟨lengths, found, leads⟩ => ?_⟩, first⟩
  · obtain ⟨value, here⟩ := Option.isSome_iff_exists.mp found
    obtain ⟨lengths, leads, _⟩ := first value here
    exact ⟨lengths, value, leads⟩
  · by_contra none
    exact nowhere (Option.not_isSome_iff_eq_none.mp none) lengths found leads

end Cornus.Auth
