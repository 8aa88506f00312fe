import Cornus.Lib.Strings
import Mathlib.Data.List.Pairwise

/-!
# The order of the recorder's timestamps

An event carries the text of its instant in the format RFC3339Nano, in UTC, and
`Read` and `Next` order events by that text.  The format drops the zeros at the
end of the fraction, and with them the whole fraction, so that a text may end
where another one goes on; the `Z` behind it is greater than every digit and
than the point.
-/

namespace Cornus.Activity

open List Nat

section Lexicographic

variable {α : Type} [LinearOrder α]

theorem append_lt_append_iff {tail : List α} (long : front.length = other.length) :
    front ++ rest < other ++ tail ↔ front < other ∨ front = other ∧ rest < tail := by
  induction front generalizing other with
  | nil =>
    have empty := length_eq_zero_iff.mp long.symm
    subst empty
    simp
  | cons head front ih =>
    cases other with
    | nil => cases long
    | cons first other =>
      have shorter : front.length = other.length := succ.inj long
      simp only [cons_append, cons_lt_cons_iff, ih shorter, cons.injEq]
      tauto

theorem append_lt_append_of_apart (rest tail : List α) (unlike : ¬front <+: other)
    (unlikeToo : ¬other <+: front) : front ++ rest < other ++ tail ↔ front < other := by
  induction front generalizing other with
  | nil => exact absurd nil_prefix unlike
  | cons head front ih =>
    cases other with
    | nil => exact absurd nil_prefix unlikeToo
    | cons first other =>
      simp only [cons_append, cons_lt_cons_iff]
      by_cases same : head = first
      · subst same
        rw [prefix_cons_inj] at unlike unlikeToo
        rw [ih unlike unlikeToo]
      · simp [same]

end Lexicographic

/-- A point in time, by its calendar fields in UTC. -/
structure Instant where
  year : Fin 10000
  month : Fin 13
  day : Fin 32
  hour : Fin 24
  (minute second : Fin 60)
  nanos : Fin 1000000000

/-- The fields down to the second, the greatest first. -/
def Instant.clock (at_ : Instant) : List Nat :=
  [at_.year, at_.month, at_.day, at_.hour, at_.minute, at_.second]

/-- The order of time. -/
def Instant.Before (at_ other : Instant) : Prop :=
  at_.clock < other.clock ∨ at_.clock = other.clock ∧ at_.nanos < other.nanos

def digit (value : Nat) : Char :=
  Char.ofNat (48 + value)

/-- A number in so many decimal digits. -/
def pad : Nat → Nat → List Char
  | 0, _ => []
  | width + 1, value => pad width (value / 10) ++ [digit (value % 10)]

/-- The digits without the zeros at their end. -/
def trimZeros : List Char → List Char
  | [] => []
  | c :: rest =>
    if trimZeros rest = [] ∧ c = '0' then [] else c :: trimZeros rest

/-- The text down to the second. -/
def Instant.head (at_ : Instant) : List Char :=
  pad 4 at_.year ++ '-' :: (pad 2 at_.month ++ '-' :: (pad 2 at_.day ++
    'T' :: (pad 2 at_.hour ++ ':' :: (pad 2 at_.minute ++ ':' :: pad 2 at_.second))))

/-- The digits behind the point. -/
def Instant.fraction (at_ : Instant) : List Char :=
  trimZeros (pad 9 at_.nanos)

/-- What follows the second. -/
def ending (fraction : List Char) : List Char :=
  if fraction = [] then ['Z'] else '.' :: (fraction ++ ['Z'])

/-- `Format(time.RFC3339Nano)` in UTC. -/
def Instant.format (at_ : Instant) : String :=
  String.ofList (at_.head ++ ending at_.fraction)

/-- The text of an event's instant, and its other fields, which no reader of the
stream looks at. -/
structure Event (Fields : Type) where
  ts : String
  fields : Fields

variable {Fields : Type}

/-- `Read`, from the events of each file of the directory, and `Next`, from those
appended to each file. -/
def read (files : List (List (Event Fields))) : List (Event Fields) :=
  files.flatten.insertionSort fun e f => e.ts ≤ f.ts

/-- Whatever instants the texts of two events stand for, they are in order. -/
def InOrder (event later : Event Fields) : Prop :=
  ∀ at_ other : Instant, event.ts = at_.format → later.ts = other.format → ¬other.Before at_

variable (at_ other : Instant)

/-- Both lie in one second, and the fraction of the first is the beginning of
that of the second. -/
def Clash : Prop :=
  at_.clock = other.clock ∧ at_.fraction <+: other.fraction ∧ at_.fraction ≠ other.fraction

theorem digit_lt (small : m < 10) (smallToo : n < 10) : digit m < digit n ↔ m < n := by
  have all : ∀ m < 10, ∀ n < 10, digit m < digit n ↔ m < n := by decide
  exact all m small n smallToo

theorem digit_bounds (small : value < 10) : '0' ≤ digit value ∧ digit value < 'Z' := by
  have all : ∀ m < 10, '0' ≤ digit m ∧ digit m < 'Z' := by decide
  exact all value small

theorem length_pad (width value : Nat) : (pad width value).length = width := by
  induction width generalizing value with
  | zero => rfl
  | succ width ih => rw [pad, length_append, ih, length_singleton]

theorem pad_bounds (mem : c ∈ pad width value) : '0' ≤ c ∧ c < 'Z' := by
  induction width generalizing value with
  | zero => cases mem
  | succ width ih =>
    rcases mem_append.mp mem with front | last
    · exact ih front
    · rw [mem_singleton.mp last]
      exact digit_bounds (mod_lt _ (by decide))

/-- Two orders that agree in both directions have the same equal pairs. -/
theorem eq_iff_of_lt_iff {α β : Type} [LinearOrder α] [LinearOrder β]
    {x y : α} {p q : β} (below : x < y ↔ p < q) (above : y < x ↔ q < p) : x = y ↔ p = q := by
  rw [← not_iff_not]
  change x ≠ y ↔ p ≠ q
  rw [ne_iff_lt_or_gt, ne_iff_lt_or_gt, below, above]

theorem pad_lt (fits : m < 10 ^ width) (fitsToo : n < 10 ^ width) :
    pad width m < pad width n ↔ m < n := by
  induction width generalizing m n with
  | zero =>
    have zero : m = n := by omega
    rw [zero]
    exact iff_of_false (lt_irrefl _) (lt_irrefl _)
  | succ width ih =>
    rw [pow_succ] at fits fitsToo
    have small : m / 10 < 10 ^ width := by omega
    have smallToo : n / 10 < 10 ^ width := by omega
    have same := eq_iff_of_lt_iff (ih small smallToo) (ih smallToo small)
    rw [pad, pad, append_lt_append_iff (by simp [length_pad]),
      ih small smallToo, same, cons_lt_cons_iff,
      digit_lt (mod_lt _ (by decide)) (mod_lt _ (by decide))]
    simp only [not_lt_nil, and_false, or_false]
    omega

theorem pad_inj (fits : m < 10 ^ width) (fitsToo : n < 10 ^ width) :
    pad width m = pad width n ↔ m = n :=
  eq_iff_of_lt_iff (pad_lt fits fitsToo) (pad_lt fitsToo fits)

/-- A number of fixed width and a separator in front of a text. -/
theorem field_lt {tail : List Char} (fits : m < 10 ^ width)
    (fitsToo : n < 10 ^ width) (behind : rest < tail ↔ p < q) :
    pad width m ++ sep :: rest < pad width n ++ sep :: tail ↔ m :: p < n :: q := by
  rw [append_lt_append_iff (by simp [length_pad]), pad_lt fits fitsToo,
    pad_inj fits fitsToo, cons_lt_cons_iff, cons_lt_cons_iff, behind]
  simp

theorem head_lt : at_.head < other.head ↔ at_.clock < other.clock := by
  have last : pad 2 at_.second < pad 2 other.second ↔
      [(at_.second : Nat)] < [(other.second : Nat)] := by
    rw [pad_lt (by omega) (by omega), cons_lt_cons_iff]
    simp
  apply field_lt (by omega) (by omega)
  apply field_lt (by omega) (by omega)
  apply field_lt (by omega) (by omega)
  apply field_lt (by omega) (by omega)
  exact field_lt (by omega) (by omega) last

section Fractions

theorem trimZeros_append (chars : List Char) :
    ∃ count, chars = trimZeros chars ++ replicate count '0' := by
  induction chars with
  | nil => exact ⟨0, rfl⟩
  | cons c rest ih =>
    obtain ⟨count, same⟩ := ih
    rw [trimZeros]
    split
    · rename_i zero
      rw [zero.1, nil_append] at same
      refine ⟨count + 1, ?_⟩
      rw [zero.2, same, replicate_succ, nil_append]
    · exact ⟨count, congrArg (c :: ·) same⟩

theorem zeros_lt (least : ∀ c ∈ chars, '0' ≤ c)
    (other : chars ≠ replicate chars.length '0') : replicate chars.length '0' < chars := by
  induction chars with
  | nil => exact absurd rfl other
  | cons c rest ih =>
    rw [length_cons, replicate_succ, cons_lt_cons_iff]
    rcases (least c mem_cons_self).lt_or_eq with greater | zero
    · exact .inl greater
    subst zero
    refine .inr ⟨rfl, ih ?_ ?_⟩
    · intro d mem
      exact least d (mem_cons_of_mem _ mem)
    · intro same
      exact other (congrArg ('0' :: ·) same)

variable {at_ other : Instant}

theorem nanos_lt : pad 9 at_.nanos < pad 9 other.nanos ↔ at_.nanos < other.nanos :=
  pad_lt (by omega) (by omega)

theorem nanos_eq (same : at_.fraction = other.fraction) : at_.nanos = other.nanos := by
  obtain ⟨count, left⟩ := trimZeros_append (pad 9 at_.nanos)
  obtain ⟨count', right⟩ := trimZeros_append (pad 9 other.nanos)
  have long := congrArg length left
  have longToo := congrArg length right
  simp only [length_pad, length_append, length_replicate] at *
  change trimZeros _ = trimZeros _ at same
  have counts : count = count' := by
    rw [same] at long
    omega
  have texts : pad 9 at_.nanos = pad 9 other.nanos := by
    rw [left, right, same, counts]
  exact Fin.ext ((pad_inj (by omega) (by omega)).mp texts)

theorem nanos_lt_of_begins (begins : at_.fraction <+: other.fraction)
    (unequal : at_.fraction ≠ other.fraction) : at_.nanos < other.nanos := by
  obtain ⟨count, left⟩ := trimZeros_append (pad 9 at_.nanos)
  obtain ⟨count', right⟩ := trimZeros_append (pad 9 other.nanos)
  have within : at_.fraction <+: pad 9 other.nanos := begins.trans ⟨_, right.symm⟩
  obtain ⟨rest, whole⟩ := within
  have long := congrArg length left
  have longToo := congrArg length whole
  change pad 9 at_.nanos = at_.fraction ++ _ at left
  change _ = (at_.fraction ++ _).length at long
  simp only [length_pad, length_append, length_replicate] at *
  have counts : count = rest.length := by omega
  apply nanos_lt.mp
  rw [left, ← whole, append_lt_append_iff rfl, counts]
  refine .inr ⟨rfl, zeros_lt ?_ ?_⟩
  · intro c mem
    apply (@pad_bounds 9 other.nanos c _).1
    rw [← whole]
    exact mem_append_right _ mem
  · intro zeros
    apply unequal
    have texts : pad 9 at_.nanos = pad 9 other.nanos := by
      rw [left, ← whole, counts, ← zeros]
    exact congrArg trimZeros texts

theorem fraction_bounds (mem : c ∈ at_.fraction) : c < 'Z' := by
  obtain ⟨count, whole⟩ := trimZeros_append (pad 9 at_.nanos)
  apply (@pad_bounds 9 at_.nanos c _).2
  rw [whole]
  exact mem_append_left _ mem

theorem ending_lt_of_begins (begins : at_.fraction <+: other.fraction)
    (unequal : at_.fraction ≠ other.fraction) : ending other.fraction < ending at_.fraction := by
  obtain ⟨rest, whole⟩ := begins
  cases rest with
  | nil => exact absurd ((append_nil _).symm.trans whole) unequal
  | cons c rest =>
    have later : c < 'Z' := by
      apply @fraction_bounds other c
      rw [← whole]
      exact mem_append_right _ mem_cons_self
    have long : other.fraction ≠ [] := by
      rw [← whole]
      simp
    rw [ending, if_neg long]
    by_cases empty : at_.fraction = []
    · rw [ending, if_pos empty, cons_lt_cons_iff]
      exact .inl (by decide)
    · rw [ending, if_neg empty, cons_lt_cons_iff, ← whole,
        append_assoc, append_lt_append_iff rfl, cons_append, cons_lt_cons_iff]
      exact .inr ⟨rfl, .inr ⟨rfl, .inl later⟩⟩

theorem ending_lt_of_apart (unlike : ¬at_.fraction <+: other.fraction)
    (unlikeToo : ¬other.fraction <+: at_.fraction) :
    ending at_.fraction < ending other.fraction ↔ at_.nanos < other.nanos := by
  have long : at_.fraction ≠ [] := by
    intro empty
    apply unlike
    rw [empty]
    exact nil_prefix
  have longToo : other.fraction ≠ [] := by
    intro empty
    apply unlikeToo
    rw [empty]
    exact nil_prefix
  obtain ⟨count, left⟩ := trimZeros_append (pad 9 at_.nanos)
  obtain ⟨count', right⟩ := trimZeros_append (pad 9 other.nanos)
  rw [ending, ending, if_neg long, if_neg longToo, cons_lt_cons_iff,
    append_lt_append_of_apart _ _ unlike unlikeToo, ← nanos_lt, left, right]
  change _ ↔ at_.fraction ++ _ < other.fraction ++ _
  rw [append_lt_append_of_apart _ _ unlike unlikeToo]
  simp

theorem format_lt_iff : at_.format < other.format ↔ at_.clock < other.clock ∨
      at_.clock = other.clock ∧ ending at_.fraction < ending other.fraction := by
  have long : at_.head.length = other.head.length := by
    simp [Instant.head, length_pad]
  rw [Instant.format, Instant.format, String.lt_iff_toList_lt,
    String.toList_ofList, String.toList_ofList, append_lt_append_iff long,
    head_lt, eq_iff_of_lt_iff (head_lt at_ other) (head_lt other at_)]

theorem format_lt_of_clash (clash : Clash at_ other) :
    other.format < at_.format ∧ at_.Before other := by
  obtain ⟨same, begins, unequal⟩ := clash
  refine ⟨?_, .inr ⟨same, nanos_lt_of_begins begins unequal⟩⟩
  rw [format_lt_iff]
  exact .inr ⟨same.symm, ending_lt_of_begins begins unequal⟩

theorem format_lt_of_before (before : at_.Before other)
    (unclashed : ¬Clash at_ other) : at_.format < other.format := by
  rw [format_lt_iff]
  rcases before with earlier | ⟨same, less⟩
  · exact .inl earlier
  refine .inr ⟨same, ?_⟩
  have unequal : at_.fraction ≠ other.fraction := by
    intro equal
    exact absurd (nanos_eq equal) (ne_of_lt less)
  rw [ending_lt_of_apart]
  · exact less
  · intro begins
    exact unclashed ⟨same, begins, unequal⟩
  · intro begins
    exact absurd (nanos_lt_of_begins begins unequal.symm) (lt_asymm less)

theorem ending_inj {fraction : List Char}
    (same : ending fraction = ending rest) : fraction = rest := by
  unfold ending at same
  split at same <;> split at same
  · rename_i empty emptyToo
    rw [empty, emptyToo]
  · cases same
  · cases same
  · exact append_cancel_right (cons.inj same).2

theorem format_inj (same : at_.format = other.format) :
    at_.clock = other.clock ∧ at_.fraction = other.fraction := by
  have long : at_.head.length = other.head.length := by
    simp [Instant.head, length_pad]
  obtain ⟨heads, endings⟩ := append_inj (String.ofList_injective same) long
  exact ⟨(eq_iff_of_lt_iff (head_lt at_ other) (head_lt other at_)).mp heads, ending_inj endings⟩

end Fractions

/-- An event as it is recorded at an instant. -/
def stamped (written : Instant × Fields) : Event Fields :=
  ⟨written.1.format, written.2⟩

section Sorted

variable {files : List (List (Event Fields))} {written : List (List (Instant × Fields))}

theorem mem_read {event : Event Fields} : event ∈ read files ↔ event ∈ files.flatten :=
  mem_insertionSort _

theorem read_sorted : (read files).Pairwise fun e f => e.ts ≤ f.ts := by
  have total : Std.Total fun e f : Event Fields => e.ts ≤ f.ts := ⟨fun _ _ => le_total _ _⟩
  have trans : IsTrans (Event Fields) fun e f => e.ts ≤ f.ts := ⟨fun _ _ _ => le_trans⟩
  exact pairwise_insertionSort _ _

theorem mem_read_stamped {event : Event Fields} :
    event ∈ read (written.map (map stamped)) ↔ ∃ e ∈ written.flatten, stamped e = event := by
  rw [mem_read, ← map_flatten, mem_map]

theorem unclashed_of_ordered (ordered : (read (written.map (map stamped))).Pairwise InOrder)
    {e f : Instant × Fields} (mem : e ∈ written.flatten) (memberToo : f ∈ written.flatten) :
    ¬Clash e.1 f.1 := by
  intro clash
  obtain ⟨inverted, before⟩ := format_lt_of_clash clash
  have symmetric : Std.Symm fun d g : Event Fields =>
      (d.ts < g.ts → InOrder d g) ∧ (g.ts < d.ts → InOrder g d) :=
    ⟨fun _ _ both => ⟨both.2, both.1⟩⟩
  -- any two events stand in the order of their texts
  have pairs := List.Pairwise.forall_of_forall (R := fun d g : Event Fields =>
      (d.ts < g.ts → InOrder d g) ∧ (g.ts < d.ts → InOrder g d))
    (fun d _ => ⟨fun less => absurd less (lt_irrefl _), fun less => absurd less (lt_irrefl _)⟩)
    ((read_sorted.and ordered).imp fun both =>
      ⟨fun _ => both.2, fun less => absurd both.1 (not_le.mpr less)⟩)
  have listed := mem_read_stamped.mpr ⟨e, mem, rfl⟩
  have listedToo := mem_read_stamped.mpr ⟨f, memberToo, rfl⟩
  exact (pairs listed listedToo).2 inverted f.1 e.1 rfl rfl before

theorem ordered_of_unclashed
    (unclashed : ∀ e ∈ written.flatten, ∀ f ∈ written.flatten, ¬Clash e.1 f.1) :
    (read (written.map (map stamped))).Pairwise InOrder := by
  apply read_sorted.imp_of_mem
  intro d g mem memberToo le at_ other textOf textOfToo before
  obtain ⟨e, among, rfl⟩ := mem_read_stamped.mp mem
  obtain ⟨f, amongToo, rfl⟩ := mem_read_stamped.mp memberToo
  have absent := unclashed f amongToo e among
  rw [Clash, (format_inj textOf).1, (format_inj textOf).2,
    (format_inj textOfToo).1, (format_inj textOfToo).2] at absent
  rw [textOf, textOfToo] at le
  exact absurd (format_lt_of_before before absent) (not_lt.mpr le)

end Sorted

/-- The events that were written to the files come back in the order of their
instants exactly when no two of them clash. -/
theorem read_ordered_iff (written : List (List (Instant × Fields))) :
    (read (written.map (map stamped))).Pairwise InOrder ↔
      ∀ e ∈ written.flatten, ∀ f ∈ written.flatten, ¬Clash e.1 f.1 :=
  ⟨fun ordered _ member _ memberToo =>
    unclashed_of_ordered ordered member memberToo, ordered_of_unclashed⟩

def noon : Instant :=
  ⟨2026, 1, 2, 12, 0, 0, 0⟩

def afterNoon : Instant :=
  ⟨2026, 1, 2, 12, 0, 0, 500000000⟩

/-- Noon sharp sorts behind half a second later. -/
theorem noon_sorts_late :
    ¬(read ([[(noon, "begin"), (afterNoon, "end")]].map (map stamped))).Pairwise InOrder := by
  intro ordered
  have clash : Clash noon afterNoon := ⟨by decide, by decide +kernel, by decide +kernel⟩
  have mem : (noon, "begin") ∈ [[(noon, "begin"), (afterNoon, "end")]].flatten := mem_cons_self
  exact unclashed_of_ordered ordered mem (mem_cons_of_mem _ mem_cons_self) clash

end Cornus.Activity
