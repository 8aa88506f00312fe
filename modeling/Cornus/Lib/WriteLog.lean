import Mathlib.Data.List.Basic

/-!
# Versions of a file under a log of writes

A file changes by writes, each of which leaves the positions it does not cover
alone.  The versions of the file are what it was after each prefix of the log
of its writes.  A position that no write covers from some version on has kept
its value since.
-/

namespace Cornus.Lib

open List

/-- How writes change what is read at the positions of a file. -/
structure WriteModel (File Write Pos Value : Type) where
  apply : File → Write → File
  read : File → Pos → Value
  Covers : Write → Pos → Prop
  untouched : ∀ file write pos, ¬Covers write pos → read (apply file write) pos = read file pos

namespace WriteModel

variable {File Write Pos Value : Type} (model : WriteModel File Write Pos Value)

/-- The file after the first `count` writes. -/
def version (base : File) (log : List Write) (count : Nat) : File :=
  (log.take count).foldl model.apply base

/-- No write after the first `count` covers the position. -/
def Quiet (log : List Write) (count : Nat) (pos : Pos) : Prop :=
  ∀ index write, count ≤ index → log[index]? = some write → ¬model.Covers write pos

/-- Write number `count`, counted from one, covers the position and no later
one does. -/
structure LastWriter (log : List Write) (count : Nat) (pos : Pos) : Prop where
  covers : ∃ index write, index + 1 = count ∧ log[index]? = some write ∧ model.Covers write pos
  quiet : model.Quiet log count pos

variable {model} {base : File} {log : List Write} {pos : Pos}

@[simp] theorem version_zero : model.version base log 0 = base := by
  simp [version]

variable {count : Nat}

theorem version_append (within : count ≤ log.length) (later : List Write) :
    model.version base (log ++ later) count = model.version base log count := by
  simp [version, take_append_of_le_length within]

theorem version_snoc (write : Write) : model.version base (log ++ [write]) (log.length + 1) =
      model.apply (model.version base log log.length) write := by
  have all : (log ++ [write]).take (log.length + 1) = log ++ [write] := take_of_length_le (by simp)
  simp [version, all]

theorem version_succ (found : log[index]? = some write) : model.version base log (index + 1) =
      model.apply (model.version base log index) write := by
  simp [version, take_add_one, found]

theorem version_succ_of_none (ended : log[index]? = none) :
    model.version base log (index + 1) = model.version base log index := by
  simp [version, take_add_one, ended]

theorem version_mono {measure : File → Nat}
    (grows : ∀ file write, measure file ≤ measure (model.apply file write))
    (ordered : early ≤ late) :
    measure (model.version base log early) ≤ measure (model.version base log late) := by
  induction late with
  | zero =>
    obtain rfl : early = 0 := by omega
    exact Nat.le_refl _
  | succ late ih =>
    rcases Nat.eq_or_lt_of_le ordered with same | earlier
    · exact same ▸ Nat.le_refl _
    apply Nat.le_trans (ih (by omega))
    cases found : log[late]? with
    | none =>
      exact Nat.le_of_eq (by rw [version_succ_of_none found])
    | some write =>
      rw [version_succ found]
      exact grows _ write

theorem read_version_of_quiet (ordered : early ≤ late) (quiet : model.Quiet log early pos) :
    model.read (model.version base log late) pos =
      model.read (model.version base log early) pos := by
  induction late with
  | zero =>
    obtain rfl : early = 0 := by omega
    rfl
  | succ late ih =>
    rcases Nat.eq_or_lt_of_le ordered with same | earlier
    · rw [same]
    rw [← ih (by omega)]
    cases found : log[late]? with
    | none =>
      rw [version_succ_of_none found]
    | some write =>
      rw [version_succ found]
      exact model.untouched _ write pos (quiet late write (by omega) found)

theorem Quiet.mono (ordered : early ≤ late) (quiet : model.Quiet log early pos)
    : model.Quiet log late pos := by
  intro index write after found
  exact quiet index write (by omega) found

theorem Quiet.snoc (quiet : model.Quiet log count pos) (misses : ¬model.Covers write pos) :
    model.Quiet (log ++ [write]) count pos := by
  intro index other after found
  rcases Nat.lt_or_ge index log.length with inside | outside
  · rw [getElem?_append_left inside] at found
    exact quiet index other after found
  · rw [getElem?_append_right outside, getElem?_singleton] at found
    split_ifs at found
    cases found
    exact misses

theorem LastWriter.snoc (last : model.LastWriter log count pos)
    (misses : ¬model.Covers write pos) : model.LastWriter (log ++ [write]) count pos where
  covers := by
    obtain ⟨index, found⟩ := last.covers
    obtain ⟨other, exactly, here, covers⟩ := found
    have inside := (List.getElem?_eq_some_iff.mp here).choose
    refine ⟨index, other, exactly, ?_, covers⟩
    rw [List.getElem?_append_left inside]
    exact here
  quiet := last.quiet.snoc misses

theorem exists_lastWriter (found : log[index]? = some write) (covers : model.Covers write pos) :
    ∃ count, index < count ∧ model.LastWriter log count pos := by
  -- the induction is on how many writes follow
  induction remaining : log.length - index using Nat.strongRecOn generalizing index write with
  | ind left ih =>
    by_cases quiet : model.Quiet log (index + 1) pos
    · exact ⟨index + 1, by omega, ⟨index, write, rfl, found, covers⟩, quiet⟩
    · simp only [Quiet, not_forall, not_not] at quiet
      obtain ⟨later, other, after, here, again⟩ := quiet
      have inside := (List.getElem?_eq_some_iff.mp here).choose
      obtain ⟨count, beyond, last⟩ := ih (log.length - later) (by omega) here again rfl
      exact ⟨count, by omega, last⟩

end WriteModel

end Cornus.Lib
