import Mathlib.Data.List.Sort
import Mathlib.Data.String.Basic

/-!
# Strings

The functions of a strings library that the models below use: trimming,
splitting at a character or at spaces, and sorting.
-/

namespace Cornus

open List

def isSpace (c : Char) : Bool :=
  [9, 10, 11, 12, 13, 32, 0x85, 0xA0, 0x1680, 0x2028, 0x2029, 0x202F, 0x205F,
    0x3000].contains c.toNat || (0x2000 ≤ c.toNat && c.toNat ≤ 0x200A)

def trimSpace (text : String) : String :=
  String.ofList ((text.toList.dropWhile isSpace).reverse.dropWhile isSpace).reverse

/-- `strings.Split(text, sep)` for a one-character separator. -/
def splitOnChar (sep : Char) (text : String) : List String :=
  (text.toList.splitOnP (· == sep)).map String.ofList

def fields (text : String) : List String :=
  ((text.toList.splitOnP isSpace).filter (· ≠ [])).map String.ofList

def sortStrings (texts : List String) : List String :=
  texts.insertionSort (· ≤ ·)

theorem mem_sortStrings : text ∈ sortStrings texts ↔ text ∈ texts :=
  mem_insertionSort _

theorem sortStrings_congr (distinct : texts.Nodup) (otherDistinct : others.Nodup)
    (same : ∀ text, text ∈ texts ↔ text ∈ others) : sortStrings texts = sortStrings others := by
  have perm : texts.Perm others := (perm_ext_iff_of_nodup distinct otherDistinct).mpr same
  apply List.Perm.eq_of_pairwise' (r := (· ≤ ·))
    (pairwise_insertionSort _ _) (pairwise_insertionSort _ _)
  exact (perm_insertionSort _ _).trans (perm.trans (perm_insertionSort _ _).symm)

section Split

variable (sep : Char)

theorem splitOnChar_ne_nil (text : String) : splitOnChar sep text ≠ [] := by
  simp [splitOnChar]

theorem splitOnChar_intercalate (free : ∀ part ∈ parts, sep ∉ part.toList) (some_ : parts ≠ []) :
    splitOnChar sep ((String.singleton sep).intercalate parts) = parts := by
  have pieces : (parts.map String.toList) ≠ [] := by simpa using some_
  have apart : ∀ piece ∈ parts.map String.toList, sep ∉ piece := by
    intro piece mem
    obtain ⟨part, among, rfl⟩ := mem_map.mp mem
    exact free part among
  have split := splitOn_intercalate sep apart pieces
  rw [splitOnChar, String.toList_intercalate, String.toList_singleton]
  change (splitOn sep _).map String.ofList = parts
  rw [split]
  simp

theorem intercalate_splitOnChar (text : String) :
    (String.singleton sep).intercalate (splitOnChar sep text) = text := by
  apply String.toList_injective
  rw [String.toList_intercalate, String.toList_singleton, splitOnChar, map_map]
  have back : (String.toList ∘ String.ofList) = id := by
    funext chars
    simp
  rw [back, map_id]
  exact intercalate_splitOn sep

theorem free_of_mem_splitOnP {α : Type} {p : α → Bool} {items : List α}
    {piece : List α} (mem : piece ∈ items.splitOnP p) : ∀ item ∈ piece, p item = false := by
  induction items generalizing piece with
  | nil =>
    rw [splitOnP_nil, mem_singleton] at mem
    intro item among
    rw [mem] at among
    cases among
  | cons first rest ih =>
    rw [splitOnP_cons_eq_if_modifyHead] at mem
    split at mem
    · rcases mem_cons.mp mem with rfl | later
      · intro item among
        cases among
      · exact ih later
    · rename_i kept
      cases pieces : rest.splitOnP p with
      | nil =>
        rw [pieces] at mem
        cases mem
      | cons head tail =>
        rw [pieces, modifyHead_cons] at mem
        rw [pieces] at ih
        rcases mem_cons.mp mem with rfl | later
        · intro item among
          rcases mem_cons.mp among with rfl | inHead
          · exact Bool.eq_false_of_not_eq_true kept
          · exact ih mem_cons_self item inHead
        · exact ih (mem_cons_of_mem _ later)

theorem free_of_mem_splitOnChar {text part : String}
    (mem : part ∈ splitOnChar sep text) : sep ∉ part.toList := by
  obtain ⟨piece, among, rfl⟩ := mem_map.mp mem
  intro inside
  rw [String.toList_ofList] at inside
  have ne := free_of_mem_splitOnP among sep inside
  simp at ne

end Split

theorem append_cons_inj {α : Type} {sep : α} {front back rest tail : List α}
    (free : sep ∉ front) (freeBack : sep ∉ back)
    (same : front ++ sep :: rest = back ++ sep :: tail) : front = back ∧ rest = tail := by
  induction front generalizing back with
  | nil =>
    cases back with
    | nil => exact ⟨rfl, (cons.inj same).2⟩
    | cons first others =>
      exact absurd ((cons.inj same).1 ▸ mem_cons_self) freeBack
  | cons head others ih =>
    cases back with
    | nil =>
      exact absurd ((cons.inj same).1 ▸ mem_cons_self) free
    | cons first remaining =>
      obtain ⟨rfl, later⟩ := cons.inj same
      obtain ⟨rfl, rfl⟩ := ih (not_mem_of_not_mem_cons free)
        (not_mem_of_not_mem_cons freeBack) later
      exact ⟨rfl, rfl⟩

variable {α : Type} [DecidableEq α] (sep : List α)

/-- What stands before and after the first occurrence of a separator. -/
def cutFirst : List α → Option (List α × List α)
  | [] => none
  | item :: items =>
    if sep <+: item :: items then some ([], (item :: items).drop sep.length)
    else (cutFirst items).map fun cut => (item :: cut.1, cut.2)

def cutLast : List α → Option (List α × List α)
  | [] => none
  | item :: items =>
    match cutLast items with
    | some cut => some (item :: cut.1, cut.2)
    | none =>
      if sep <+: item :: items then some ([], (item :: items).drop sep.length)
      else none

variable {sep} {items front back : List α}

theorem cutFirst_eq_none (some_ : sep ≠ []) : cutFirst sep items = none ↔ ¬sep <:+: items := by
  induction items with
  | nil => simp [cutFirst, some_]
  | cons item items ih =>
    rw [cutFirst, infix_cons_iff]
    split
    · rename_i here
      simp [here]
    · rename_i there
      rw [Option.map_eq_none_iff, ih]
      simp [there]

theorem cutLast_eq_none (some_ : sep ≠ []) : cutLast sep items = none ↔ ¬sep <:+: items := by
  induction items with
  | nil => simp [cutLast, some_]
  | cons item items ih =>
    rw [cutLast, infix_cons_iff]
    cases found : cutLast sep items with
    | some cut =>
      rw [found] at ih
      have later : sep <:+: items := by
        by_contra absent
        cases ih.mpr absent
      simp [later]
    | none =>
      have absent := ih.mp found
      by_cases here : sep <+: item :: items
      · simp [here]
      · simp [here, absent]

theorem cutFirst_append (some_ : sep ≠ []) :
    cutFirst sep (front ++ sep ++ back) = some (front, back) ↔ ¬sep <:+: front ++ sep.dropLast := by
  have short : ¬sep <:+: sep.dropLast := by
    intro inside
    have length := inside.length_le
    have positive := length_pos_of_ne_nil some_
    rw [length_dropLast] at length
    omega
  induction front with
  | nil =>
    cases sep with
    | nil => exact absurd rfl some_
    | cons first rest => simpa [cutFirst] using short
  | cons item front ih =>
    rw [cons_append, cons_append, cutFirst, cons_append, infix_cons_iff]
    -- an occurrence at the first item ends before the separator does
    have early : sep <+: item :: (front ++ sep ++ back) ↔
        sep <+: item :: (front ++ sep.dropLast) := by
      constructor
      · intro begins
        apply prefix_of_prefix_length_le begins
        · refine ⟨sep.getLast some_ :: back, ?_⟩
          have whole := dropLast_append_getLast some_
          nth_rewrite 3 [← whole]
          simp
        · have positive := length_pos_of_ne_nil some_
          simp only [length_cons, length_append, length_dropLast]
          omega
      · intro begins
        refine begins.trans ?_
        rw [prefix_cons_inj, append_assoc, prefix_append_right_inj]
        exact (List.dropLast_prefix sep).trans (prefix_append _ _)
    split
    · rename_i here
      simp [early.mp here]
    · rename_i there
      have absent := mt early.mpr there
      rw [Option.map_eq_some_iff]
      constructor
      · intro found
        obtain ⟨cut, found, same⟩ := found
        cases cut
        cases same
        simp only [absent, false_or]
        exact ih.mp found
      · intro clear
        exact ⟨_, ih.mpr (fun later => clear (.inr later)), rfl⟩

theorem eq_of_cutFirst (found : cutFirst sep items = some (front, back)) :
    items = front ++ sep ++ back := by
  induction items generalizing front with
  | nil => cases found
  | cons item items ih =>
    rw [cutFirst] at found
    split at found
    · rename_i here
      obtain ⟨more, same⟩ := here
      cases found
      rw [← same]
      simp
    · obtain ⟨cut, later, same⟩ := Option.map_eq_some_iff.mp found
      cases same
      rw [ih later]
      rfl

theorem cutLast_append (alone : ¬sep <:+: (sep ++ back).tail) (some_ : sep ≠ []) :
    cutLast sep (front ++ sep ++ back) = some (front, back) := by
  induction front with
  | nil =>
    cases sep with
    | nil => exact absurd rfl some_
    | cons first rest =>
      rw [cons_append, tail_cons] at alone
      rw [nil_append, cons_append, cutLast, (cutLast_eq_none some_).mpr alone]
      simp
  | cons item front ih =>
    rw [cons_append, cons_append, cutLast, ih]

end Cornus
