import Cornus.Wire.ReplySizes

/-!
# The reply to a deferred fsync

The drained units are sent in frames of at most `maxPer` units, each behind a
count of 16 bits.  The proxy gathers the frames up to the one marked final and
takes from each as many units as its count says.
-/

namespace Cornus.Wire.Msg

open Lib.Cursor List Nat

/-- The loop of `handleFSync`: whether a frame is final, and its payload. -/
def fsyncLoop (maxPer : Nat) : Nat → List (UnitHash UInt64) → List (Bool × List UInt8)
  | 0, _ => []
  | _ + 1, [] => []
  | fuel + 1, units =>
    (decide (units.length ≤ maxPer), putUnits (units.take maxPer)) ::
      fsyncLoop maxPer fuel (units.drop maxPer)

/-- `handleFSync`, with the units it drains. -/
def Server.handleFSync (s : Server) (units : List (UnitHash UInt64)) : List (Bool × List UInt8) :=
  if units = [] then [(true, be 2 0)]
  else fsyncLoop s.maxPer units.length units

/-- The payloads of a response, and the frames that follow it. -/
def doFrames : List (Bool × List UInt8) → Option (List (List UInt8) × List (Bool × List UInt8))
  | [] => none
  | (final, payload) :: rest =>
    if final then some ([payload], rest)
    else (doFrames rest).map fun (payloads, left) => (payload :: payloads, left)

/-- The units of one payload. -/
def readUnits (payload : List UInt8) : List (UnitHash UInt64) :=
  ((getUnits ⟨payload, 0, false⟩).map Prod.fst).getD []

/-- The units the loop of `FSync` reads, and the frames it leaves. -/
def fSync (frames : List (Bool × List UInt8)) :
    Option (List (UnitHash UInt64) × List (Bool × List UInt8)) :=
  (doFrames frames).map fun (payloads, left) => (payloads.flatMap readUnits, left)

/-- What is left of a unit in the fields of the wire. -/
def narrow (u : UnitHash UInt64) : UnitHash UInt64 :=
  ⟨u.blockIdx % 256 ^ 8, u.subOff % 256 ^ 4, u.subLen % 256 ^ 4, u.hash⟩

variable (units : List (UnitHash UInt64))

/-- What is left of the units of one frame. -/
def received : List (UnitHash UInt64) :=
  (units.take (units.length % 256 ^ 2)).map narrow

theorem readUnits_putUnits : readUnits (putUnits units) = received units := by
  have each : ∀ u : UnitHash UInt64, Reads getUnitHash (putUnitHash u) (narrow u) := fun u =>
    (reads_uint 8 _).bind ((reads_uint 4 _).bind ((reads_uint 4 _).bind ((reads_u64 _).bind .pure)))
  have many := @reads_getMany _ getUnitHash _ _ _ (units.take (units.length % 256 ^ 2))
    fun u _ => each u
  rw [length_take_of_le (mod_le _ _)] at many
  have reads := (reads_uint 2 units.length).bind many []
    ((units.drop (units.length % 256 ^ 2)).flatMap putUnitHash)
  rw [nil_append, append_assoc, ← flatMap_append, take_append_drop] at reads
  exact congrArg (fun got => (got.map Prod.fst).getD []) reads

variable {units : List (UnitHash UInt64)}

theorem doFrames_fsyncLoop {maxPer : Nat} (positive : 0 < maxPer)
    (enough : units.length ≤ fuel) (some_ : units ≠ []) : doFrames (fsyncLoop maxPer fuel units) =
      some ((splitFrames maxPer fuel units).map putUnits, []) := by
  induction fuel generalizing units with
  | zero => exact absurd (length_eq_zero_iff.mp (le_zero.mp enough)) some_
  | succ fuel ih =>
    rw [fsyncLoop, splitFrames, doFrames]
    · by_cases last : units.length ≤ maxPer
      · rw [if_pos (decide_eq_true last), drop_eq_nil_of_le last]
        cases fuel <;> rfl
      · rw [if_neg (by simpa using last), ih]
        · rfl
        · rw [length_drop]
          omega
        · exact fun ended => last (drop_eq_nil_iff.mp ended)
    · exact some_
    · exact some_

theorem flatMap_eq_flatten_iff {α : Type} {f : List α → List α} {batches : List (List α)}
    (shorter : ∀ batch, (f batch).length ≤ batch.length) :
    (batches.flatMap f).length ≤ batches.flatten.length ∧
      (batches.flatMap f = batches.flatten ↔ ∀ batch ∈ batches, f batch = batch) := by
  induction batches with
  | nil => simp
  | cons batch batches ih =>
    obtain ⟨less, same⟩ := ih
    have first := shorter batch
    rw [flatMap_cons, flatten_cons, length_append, length_append, forall_mem_cons, ← same]
    refine ⟨by omega, ?_, ?_⟩
    · intro equal
      have total := congrArg length equal
      rw [length_append, length_append] at total
      exact append_inj equal (by omega)
    · rintro ⟨here, rest⟩
      rw [here, rest]

theorem received_eq_iff (machine : ∀ u ∈ units, u.blockIdx < 2 ^ 63) : received units = units ↔
      units.length < 256 ^ 2 ∧ ∀ u ∈ units, u.subOff < 2 ^ 32 ∧ u.subLen < 2 ^ 32 := by
  have fields : ∀ u ∈ units, narrow u = u ↔ u.subOff < 2 ^ 32 ∧ u.subLen < 2 ^ 32 := by
    rintro ⟨b, subOff, subLen, hash⟩ mem
    have index := machine _ mem
    simp only [narrow, UnitHash.mk.injEq, and_true] at index ⊢
    omega
  by_cases few : units.length < 256 ^ 2
  · have each := @map_inj_left _ _ units narrow id
    rw [map_id] at each
    rw [received, mod_eq_of_lt few, take_length, each, and_iff_right few]
    exact forall₂_congr fields
  · refine iff_of_false (fun same => few ?_) fun fits => few fits.1
    rw [← congrArg length same, received, length_map, length_take]
    omega

theorem take_mem_splitFrames {α : Type} (size : Nat) {units : List α} (some_ : units ≠ []) :
    units.take size ∈ splitFrames size units.length units := by
  obtain ⟨fuel, length⟩ := exists_eq_succ_of_ne_zero (mt length_eq_zero_iff.mp some_)
  rw [length, splitFrames]
  · exact mem_cons_self
  · exact some_

theorem fSync_eq_iff_received {s : Server} (some_ : units ≠ []) :
    fSync (s.handleFSync units) = some (units, []) ↔
      ∀ batch ∈ splitFrames s.maxPer units.length units, received batch = batch := by
  have positive : 0 < s.maxPer := le_max_left 1 _
  have shorter : ∀ batch, (received batch).length ≤ batch.length := by
    intro batch
    rw [received, length_map, length_take]
    exact min_le_right _ _
  rw [← (flatMap_eq_flatten_iff shorter).2, splitFrames_flatten positive (le_refl _),
    Server.handleFSync, if_neg some_, fSync, doFrames_fsyncLoop positive (le_refl _) some_]
  simp only [Option.map_some, flatMap_map, readUnits_putUnits, Option.some.injEq, Prod.mk.injEq,
    and_true]

/-- The proxy reads the drained units, in order, and nothing is left of the
response, if and only if no count and no field is cut off. -/
theorem fSync_handleFSync_iff (s : Server) (units : List (UnitHash UInt64))
    (machine : ∀ u ∈ units, u.blockIdx < 2 ^ 63) :
    fSync (s.handleFSync units) = some (units, []) ↔ (s.maxPer < 65536 ∨ units.length < 65536) ∧
      ∀ u ∈ units, u.subOff < 2 ^ 32 ∧ u.subLen < 2 ^ 32 := by
  by_cases none_ : units = []
  · subst none_
    exact iff_of_true rfl ⟨.inr (by decide), by simp⟩
  have whole : (splitFrames s.maxPer units.length units).flatten = units :=
    splitFrames_flatten (le_max_left 1 _) (le_refl _)
  have within : ∀ batch ∈ splitFrames s.maxPer units.length units, ∀ u ∈ batch, u ∈ units := by
    intro batch split u member
    rw [← whole]
    exact mem_flatten.mpr ⟨batch, split, member⟩
  have each := fun batch split => received_eq_iff fun u member =>
    machine u (within batch split u member)
  rw [fSync_eq_iff_received none_]
  constructor
  · intro all
    constructor
    · have first := ((each _ (take_mem_splitFrames _ none_)).mp
        (all _ (take_mem_splitFrames _ none_))).1
      rw [length_take] at first
      omega
    · intro u member
      rw [← whole] at member
      obtain ⟨batch, split, among⟩ := mem_flatten.mp member
      exact ((each batch split).mp (all batch split)).2 u among
  · rintro ⟨few, fits⟩ batch split
    obtain ⟨short, shorter⟩ := length_splitFrames_le split
    exact (each batch split).mpr ⟨by omega, fun u member => fits u (within batch split u member)⟩

theorem oneUnit_decoded : (∀ u ∈ [⟨3, 4096, 4096, 7⟩], UnitHash.blockIdx u < 2 ^ 63) ∧
    fSync (Server.handleFSync ⟨2 ^ 20, false, true, true⟩ [⟨3, 4096, 4096, 7⟩]) =
      some ([⟨3, 4096, 4096, 7⟩], []) :=
  ⟨by simp, (fSync_handleFSync_iff _ _ (by simp)).mpr (by simp)⟩

/-- The first write units of the chunks 0 to 65535. -/
def firstUnits : List (UnitHash UInt64) :=
  (range 65536).map fun b => ⟨b, 0, 4096, 7⟩

/-- 65536 units go out in one frame of a chunk of 2 MiB, behind the count 0. -/
theorem fullCount_dropped :
    fSync (Server.handleFSync ⟨2 ^ 21, false, true, true⟩ firstUnits) ≠ some (firstUnits, []) := by
  have length_ : firstUnits.length = 65536 := by rw [firstUnits, length_map, length_range]
  have some_ : firstUnits ≠ [] := ne_nil_of_length_pos (by rw [length_]; decide)
  rw [Ne, fSync_eq_iff_received some_]
  intro all
  have first := congrArg length (all _ (take_mem_splitFrames _ some_))
  rw [received, length_map, length_take, length_take, length_] at first
  revert first
  decide

end Cornus.Wire.Msg
