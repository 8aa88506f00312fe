import Mathlib.Data.List.Basic

/-!
# Readers of a stream that arrives in pieces

One read gets bytes of the next piece only.  A full read goes on until it has
what it asked for or the stream ends, so what it yields depends on the bytes and
not on the pieces.
-/

namespace Cornus.Lib.Pieces

open List

inductive ReadError
  | eof
  | unexpectedEOF
  | other (text : String)
  deriving DecidableEq

def gather : Nat → List (List UInt8) → List UInt8 × List (List UInt8)
  | _, [] => ([], [])
  | n, piece :: rest =>
    if piece.length < n then
      let (more, left) := gather (n - piece.length) rest
      (piece ++ more, left)
    else (piece.take n, piece.drop n :: rest)

theorem gather_flatten (n : Nat) (pieces : List (List UInt8)) :
    (gather n pieces).1 = pieces.flatten.take n ∧
      (gather n pieces).2.flatten = pieces.flatten.drop n := by
  induction pieces generalizing n with
  | nil => simp [gather]
  | cons piece rest ih =>
    obtain ⟨taken, left⟩ := ih (n - piece.length)
    rw [gather, flatten_cons]
    split_ifs with short
    · rw [take_append, drop_append, take_of_length_le (Nat.le_of_lt short),
        drop_eq_nil_of_le (Nat.le_of_lt short), ← taken, ← left]
      exact ⟨rfl, rfl⟩
    · rw [Nat.not_lt] at short
      rw [take_append_of_le_length short, drop_append_of_le_length short]
      exact ⟨rfl, rfl⟩

abbrev Reader := StateT (List (List UInt8)) (Except ReadError)

def readFull (n : Nat) : Reader (List UInt8) := fun pieces =>
  let got := gather n pieces
  if got.1.length = n then .ok got
  else if got.1 = [] then .error .eof
  else .error .unexpectedEOF

theorem readFull_left (done : readFull n pieces = .ok (got, left)) :
    got.length = n ∧ left.flatten.length + n = pieces.flatten.length := by
  have facts := gather_flatten n pieces
  have total := congrArg length (take_append_drop n pieces.flatten)
  rw [readFull] at done
  split_ifs at done with full
  simp only [Except.ok.inj done] at facts full
  rw [length_append, ← facts.1, ← facts.2] at total
  omega

def inTurn {α : Type} : List (Reader α) → Reader (List α)
  | [] => return []
  | reader :: readers => do
    let item ← reader
    return item :: (← inTurn readers)

section

variable {α β γ : Type} {get : Reader α} {next : α → Reader β} {bytes more : List UInt8} {value : α}

/-- However `bytes` arrive, `get` takes exactly them and yields `value`; it
reports the end of a stream that stops before. -/
structure Takes (get : Reader α) (bytes : List UInt8) (value : α) : Prop where
  whole : ∀ pieces rest, pieces.flatten = bytes ++ rest →
    ∃ later, get pieces = .ok (value, later) ∧ later.flatten = rest
  cut : ∀ pieces more, pieces.flatten ++ more = bytes → more ≠ [] →
    get pieces = .error .eof ∨ get pieces = .error .unexpectedEOF

theorem Takes.pure : Takes (pure value) [] value where
  whole := fun pieces _ same => ⟨pieces, rfl, same⟩
  cut := by simp +contextual

/-- A stream that stops within two parts stops within the first, or has it. -/
theorem cut_append (same : front ++ missing = bytes ++ more) :
    (∃ rest, front ++ rest = bytes ∧ rest ≠ []) ∨
      ∃ rest, front = bytes ++ rest ∧ rest ++ missing = more := by
  rcases append_eq_append_iff.mp same with ⟨rest, early, late⟩ | ⟨rest, early, late⟩
  · by_cases none_ : rest = []
    · subst none_
      exact .inr ⟨[], by simpa using early.symm, late⟩
    · exact .inl ⟨rest, early.symm, none_⟩
  · exact .inr ⟨rest, early, late.symm⟩

theorem Takes.bind (first : Takes get bytes value) (second : Takes (next value) more result) :
    Takes (get >>= next) (bytes ++ more) result where
  whole := by
    intro pieces rest same
    obtain ⟨middle, got, left⟩ := first.whole pieces (more ++ rest) (by simpa using same)
    obtain ⟨later, ended, remains⟩ := second.whole middle rest left
    exact ⟨later, by simp only [Bind.bind, StateT.bind, Except.bind, got, ended], remains⟩
  cut := by
    intro pieces missing same some_
    rcases cut_append same with ⟨rest, early, none_⟩ | ⟨rest, early, late⟩
    · rcases first.cut pieces rest early none_ with ended | ended <;>
        simp [Bind.bind, StateT.bind, Except.bind, ended]
    · obtain ⟨middle, got, left⟩ := first.whole pieces rest early
      have ended := second.cut middle missing (by rw [left, late]) some_
      simpa only [Bind.bind, StateT.bind, Except.bind, got] using ended

theorem Takes.map (first : Takes get bytes value) (f : α → β) :
    Takes (do return f (← get)) bytes (f value) := by
  rw [← append_nil bytes]
  exact first.bind .pure

theorem takes_readFull (bytes : List UInt8) : Takes (readFull bytes.length) bytes bytes where
  whole := by
    intro pieces rest same
    have facts := gather_flatten bytes.length pieces
    rw [same, take_left', drop_left'] at facts
    · refine ⟨_, ?_, facts.2⟩
      rw [readFull, if_pos (by rw [facts.1])]
      exact congrArg Except.ok (Prod.ext facts.1 rfl)
    all_goals rfl
  cut := by
    intro pieces more same some_
    have facts := gather_flatten bytes.length pieces
    have length := length_pos_iff.mpr some_
    rw [← same, take_of_length_le (by simp)] at facts
    rw [readFull, if_neg]
    · split_ifs
      · exact .inl rfl
      · exact .inr rfl
    · rw [← same, facts.1, length_append]
      omega

theorem takes_inTurn {f : γ → α} {items : List γ}
    (each : ∀ item ∈ items, Takes (gets item) (put item) (f item)) :
    Takes (inTurn (items.map gets)) (items.flatMap put) (items.map f) := by
  induction items with
  | nil => exact .pure
  | cons item items ih =>
    have rest := ih fun other mem => each other (mem_cons_of_mem _ mem)
    rw [flatMap_cons]
    exact (each item mem_cons_self).bind (rest.map (f item :: ·))

end

end Cornus.Lib.Pieces
