import Mathlib.Data.List.AList

/-!
# Finite maps keyed by strings

A map is an association list without repeated keys.  The order of its entries
stands for the order in which a caller happens to range over it.
-/

namespace Cornus

open List AList

section Lookup

variable {Key Value : Type} [DecidableEq Key] {map : AList fun _ : Key => Value} {key other : Key}

theorem lookup_insert_eq_some_iff : (map.insert key value).lookup other = some found ↔
      other = key ∧ value = found ∨ other ≠ key ∧ map.lookup other = some found := by
  by_cases same : other = key
  · subst same
    simp
  · simp [lookup_insert_ne same, same]

theorem lookup_erase_eq_some_iff : (map.erase key).lookup other = some found ↔
      other ≠ key ∧ map.lookup other = some found := by
  by_cases same : other = key
  · subst same
    simp
  · simp [lookup_erase_ne same, same]

end Lookup

abbrev Dict (Value : Type) := AList fun _ : String => Value

namespace Dict

variable {Value Other Third Failure : Type} (change : String → Value → Other) (dict : Dict Value)

/-- Applies a function to every value, keeping keys and order. -/
def mapVals : Dict Other :=
  ⟨dict.entries.map (Sigma.map id change), List.NodupKeys.map₂ change dict.entries dict.nodupKeys⟩

variable (wanted : String → Bool)

def restrict (dict : Dict Value) : Dict Value :=
  ⟨dict.entries.filter (fun entry => wanted entry.1), dict.nodupKeys.sublist filter_sublist⟩

/-- Applies a fallible function to the entries of a list in order, stopping at
the first failure. -/
def traverseEntries (change : String → Value → Except Failure Other) :
    (entries : List (Σ _ : String, Value)) →
      Except Failure { result : List (Σ _ : String, Other) // result.keys = entries.keys }
  | [] => .ok ⟨[], rfl⟩
  | ⟨key, value⟩ :: rest =>
    match change key value with
    | .error failure => .error failure
    | .ok other =>
      match traverseEntries change rest with
      | .error failure => .error failure
      | .ok tail => .ok ⟨⟨key, other⟩ :: tail.1, by
          rw [keys_cons, keys_cons, tail.2]⟩

/-- Applies a fallible function to every value in order. -/
def traverse (change : String → Value → Except Failure Other)
    (dict : Dict Value) : Except Failure (Dict Other) :=
  match traverseEntries change dict.entries with
  | .error failure => .error failure
  | .ok result => .ok ⟨result.1, by
      rw [List.NodupKeys, result.2]
      exact dict.nodupKeys⟩

/-- Sets `key` to `value`, as an assignment to a map entry does. -/
def put (key : String) (value : Value) : Dict Value :=
  dict.insert key value

variable (base override : Dict Value)

def overlay : Dict Value :=
  override ∪ base

theorem lookup_overlay (name : String) :
    (base.overlay override).lookup name = (override.lookup name).or (base.lookup name) := by
  rw [overlay]
  cases found : override.lookup name with
  | none => exact lookup_union_right (lookup_eq_none.mp found)
  | some value =>
    rw [lookup_union_left (lookup_isSome.mp (by rw [found]; rfl)), found]
    rfl

@[simp] theorem lookup_mapVals (key : String) :
    (dict.mapVals change).lookup key = (dict.lookup key).map (change key) :=
  dlookup_map₂ key

@[simp] theorem mapVals_mapVals
    (next : String → Other → Third) (dict : Dict Value) : (dict.mapVals change).mapVals next =
      dict.mapVals fun key value => next key (change key value) := by
  apply AList.ext
  simp only [mapVals, map_map]
  rfl

theorem mapVals_congr {change : String → Value → Other}
    (same : ∀ key value, change key value = other key value)
    (dict : Dict Value) : dict.mapVals change = dict.mapVals other := by
  have equal : change = other := funext fun key => funext (same key)
  rw [equal]

theorem mapVals_id : dict.mapVals (fun _ value => value) = dict := by
  apply AList.ext
  exact map_id _

theorem lookup_restrict (dict : Dict Value) (key : String) : (dict.restrict wanted).lookup key =
      if wanted key then dict.lookup key else none := by
  apply Option.ext
  intro value
  rw [← Option.mem_def, mem_lookup_iff]
  change ⟨key, value⟩ ∈ dict.entries.filter _ ↔ _
  rw [mem_filter, ← mem_lookup_iff, Option.mem_def]
  split
  · rename_i among
    simp [among]
  · rename_i outside
    simp [outside]

theorem lookup_foldl_insert (wanted : Value → Bool)
    {entries : List (Σ _ : String, Value)} (distinct : entries.NodupKeys)
    (base : Dict Value) (key : String) : (entries.foldl (fun seen entry =>
        if wanted entry.2 then seen.insert entry.1 entry.2 else seen)
      base).lookup key = ((entries.dlookup key).filter wanted).or (base.lookup key) := by
  induction entries generalizing base with
  | nil => rfl
  | cons entry rest ih =>
    obtain ⟨first, value⟩ := entry
    obtain ⟨fresh, distinct⟩ := nodupKeys_cons.mp distinct
    rw [foldl_cons, ih distinct]
    by_cases same : key = first
    · subst same
      rw [dlookup_eq_none.mpr fresh, dlookup_cons_eq]
      by_cases kept : wanted value = true
      · simp [Option.filter, kept]
      · simp [Option.filter, kept]
    · rw [dlookup_cons_ne _ _ same]
      by_cases kept : wanted value = true
      · simp [kept, lookup_insert_ne same]
      · simp [kept]

variable {change : String → Value → Except Failure Other}

theorem lookup_traverseEntries (key : String) : ∀ {entries : List (Σ _ : String, Value)} {result},
      traverseEntries change entries = .ok result →
        ((result.1.dlookup key).map Except.ok : Option (Except Failure Other)) =
          (entries.dlookup key).map (change key)
  | [], result, done => by
    cases done
    rfl
  | ⟨first, value⟩ :: rest, result, done => by
    rw [traverseEntries] at done
    cases head : change first value with
    | error failure =>
      rw [head] at done
      cases done
    | ok other =>
      cases tail : traverseEntries change rest with
      | error failure =>
        rw [head, tail] at done
        cases done
      | ok others =>
        rw [head, tail] at done
        cases done
        by_cases here : key = first
        · subst here
          rw [dlookup_cons_eq, dlookup_cons_eq]
          exact congrArg some head.symm
        · rw [dlookup_cons_ne _ _ here, dlookup_cons_ne _ _ here]
          exact lookup_traverseEntries key tail

theorem lookup_traverse {dict : Dict Value}
    (done : dict.traverse change = .ok result) (key : String) :
    ((result.lookup key).map Except.ok : Option (Except Failure Other)) =
      (dict.lookup key).map (change key) := by
  rw [traverse] at done
  cases inner : traverseEntries change dict.entries with
  | error failure =>
    rw [inner] at done
    cases done
  | ok entries =>
    rw [inner] at done
    cases done
    exact lookup_traverseEntries key inner

end Dict

end Cornus
