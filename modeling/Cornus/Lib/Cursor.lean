import Mathlib.Data.List.Basic
import Mathlib.Tactic.Ring

/-!
# Readers with a cursor

Big-endian integers, and readers of a byte buffer that keep a cursor and an
error flag.  A read the buffer is too short for sets the flag and yields nothing;
an index outside the buffer would be `none`.
-/

namespace Cornus.Lib.Cursor

open List

def be : Nat → Nat → List UInt8
  | 0, _ => []
  | width + 1, value => be width (value / 256) ++ [UInt8.ofNat value]

def ofBe (bytes : List UInt8) : Nat :=
  bytes.foldl (fun value byte => value * 256 + byte.toNat) 0

variable (width value : Nat)

@[simp]
theorem length_be : (be width value).length = width := by
  induction width generalizing value with
  | zero => rfl
  | succ width ih => simp [be, ih]

theorem ofBe_be : ofBe (be width value) = value % 256 ^ width := by
  induction width generalizing value with
  | zero => simp [be, ofBe, Nat.mod_one]
  | succ width ih =>
    have lower := ih (value / 256)
    simp only [ofBe, be, foldl_append, foldl_cons, foldl_nil] at lower ⊢
    rw [lower, pow_succ', Nat.mod_mul, UInt8.toNat_ofNat']
    ring

structure Input where
  b : List UInt8
  off : Nat
  err : Bool

abbrev Get := StateT Input Option

def read (n : Nat) : Get (List UInt8) := fun r =>
  if r.err then some ([], r)
  else if r.b.length < r.off + n then some ([], { r with err := true })
  else if r.off + n ≤ r.b.length then
    some ((r.b.drop r.off).take n, { r with off := r.off + n })
  else none

def uint : Get Nat := do
  return ofBe (← read width)

def getMany {α : Type} (get : Get α) : Nat → Get (List α)
  | 0 => return []
  | n + 1 => do
    let item ← get
    let items ← getMany get n
    return item :: items

section
variable {α β : Type} {get : Get α} {next : α → Get β} {bytes more : List UInt8} {value : α}
  {result : β}

/-- Wherever `bytes` stand, `get` takes exactly them and yields `value`. -/
def Reads (get : Get α) (bytes : List UInt8) (value : α) : Prop :=
  ∀ front rest, get ⟨front ++ bytes ++ rest, front.length, false⟩ =
    some (value, ⟨front ++ bytes ++ rest, (front ++ bytes).length, false⟩)

theorem Reads.pure : Reads (pure value) [] value := by
  intro front rest
  rw [append_nil]
  rfl

theorem Reads.bind (first : Reads get bytes value) (second : Reads (next value) more result) :
    Reads (get >>= next) (bytes ++ more) result := by
  intro front rest
  have start := first front (more ++ rest)
  have finish := second (front ++ bytes) rest
  simp only [append_assoc] at start finish ⊢
  simp only [Bind.bind, StateT.bind, start, Option.bind_some, finish]

theorem Reads.map (first : Reads get bytes value) (f : α → β) :
    Reads (do return f (← get)) bytes (f value) := by
  rw [← append_nil bytes]
  exact first.bind .pure

theorem reads_read (bytes : List UInt8) : Reads (read bytes.length) bytes bytes := by
  intro front rest
  simp [read]

theorem reads_uint (width value : Nat) :
    Reads (uint width) (be width value) (value % 256 ^ width) := by
  have digits := reads_read (be width value)
  rw [length_be] at digits
  rw [← ofBe_be]
  exact digits.map ofBe

theorem reads_getMany {γ : Type} {put : γ → List UInt8} {f : γ → α} {items : List γ}
    (each : ∀ item ∈ items, Reads get (put item) (f item)) :
    Reads (getMany get items.length) (items.flatMap put) (items.map f) := by
  induction items with
  | nil => exact .pure
  | cons item items ih =>
    have rest := ih fun other mem => each other (mem_cons_of_mem _ mem)
    exact (each item mem_cons_self).bind (rest.map (f item :: ·))

/-- What no read changes: the buffer, a cursor inside it, an error that is set. -/
structure Input.Kept (r later : Input) : Prop where
  buffer : later.b = r.b
  inside : r.off ≤ r.b.length → later.off ≤ r.b.length
  error : r.err = true → later.err = true

theorem Input.Kept.trans {r : Input} (first : r.Kept middle)
    (second : middle.Kept later) : r.Kept later where
  buffer := second.buffer.trans first.buffer
  inside := by
    have inside := second.inside
    rw [first.buffer] at inside
    exact inside ∘ first.inside
  error := second.error ∘ first.error

def Safe (get : Get α) : Prop :=
  ∀ r, ∃ value later, get r = some (value, later) ∧ r.Kept later

theorem Safe.pure : Safe (pure value : Get α) := fun r => ⟨value, r, rfl, rfl, id, id⟩

theorem Safe.bind (first : Safe get) (second : ∀ value, Safe (next value)) :
    Safe (get >>= next) := by
  intro r
  obtain ⟨value, middle, got, kept⟩ := first r
  obtain ⟨result, later, gotNext, keptNext⟩ := second value middle
  refine ⟨result, later, ?_, kept.trans keptNext⟩
  simp only [Bind.bind, StateT.bind, got, Option.bind_some, gotNext]

theorem Safe.map (first : Safe get) (f : α → β) : Safe (do return f (← get)) :=
  first.bind fun _ => .pure

theorem safe_read (n : Nat) : Safe (read n) := by
  intro r
  unfold read
  split
  · exact ⟨_, _, rfl, rfl, id, id⟩
  split
  · exact ⟨_, _, rfl, rfl, id, fun _ => rfl⟩
  rename_i fits
  rw [if_pos (Nat.le_of_not_lt fits)]
  exact ⟨_, _, rfl, rfl, fun _ => Nat.le_of_not_lt fits, id⟩

theorem safe_uint : Safe (uint width) := (safe_read width).map ofBe

theorem safe_getMany (safe : Safe get) (n : Nat) : Safe (getMany get n) := by
  induction n with
  | zero => exact .pure
  | succ n ih => exact safe.bind fun item => ih.map (item :: ·)

end

end Cornus.Lib.Cursor
