import Cornus.Lib.Strings

/-!
# Cleaning of slash-separated paths

`path.Clean`, on the segments of a path.  A rooted path drops the steps that
lead above the root; a relative one keeps them in front.
-/

namespace Cornus.Lib

open List

def PlainName (name : String) : Prop :=
  name ≠ "" ∧ name ≠ "." ∧ name ≠ ".."

instance (name : String) : Decidable (PlainName name) :=
  inferInstanceAs (Decidable (_ ∧ _))

variable (rooted : Bool) (out : List String)

def cleanSegment (segment : String) : List String :=
  if segment = "" ∨ segment = "." then out
  else if segment = ".." then
    match out.getLast? with
    | none => if rooted then [] else [".."]
    | some last => if last = ".." then out ++ [".."] else out.dropLast
  else out ++ [segment]

variable (text : String)

/-- `path.Clean`, as the list of the segments that are left. -/
def cleanPath : List String :=
  (splitOnChar '/' text).foldl (cleanSegment rooted) []

def cleanText : String :=
  if text.toList.head? = some '/' then
    "/" ++ "/".intercalate (cleanPath true text)
  else
    match cleanPath false text with
    | [] => "."
    | names => "/".intercalate names

def joinPath (first second : String) : String :=
  if first = "" then if second = "" then "" else cleanText second
  else cleanText (first ++ "/" ++ second)

theorem foldl_cleanSegment_plain (plain : ∀ name ∈ names, PlainName name) :
    names.foldl (cleanSegment rooted) out = out ++ names := by
  induction names generalizing out with
  | nil => simp
  | cons name names ih =>
    obtain ⟨named, single, double⟩ := plain name mem_cons_self
    have kept : cleanSegment rooted out name = out ++ [name] := by
      rw [cleanSegment, if_neg (not_or.mpr ⟨named, single⟩), if_neg double]
    rw [foldl_cons, kept, ih _ fun other mem => plain other (mem_cons_of_mem _ mem)]
    simp

theorem plain_cleanPath : ∀ name ∈ cleanPath true text, PlainName name := by
  suffices kept : ∀ (segments out : List String), (∀ name ∈ out, PlainName name) →
      ∀ name ∈ segments.foldl (cleanSegment true) out, PlainName name by
    exact kept _ [] (by simp)
  intro segments
  induction segments with
  | nil => exact fun out plain => plain
  | cons segment segments ih =>
    intro out plain
    apply ih
    rw [cleanSegment]
    split
    · exact plain
    rename_i named
    split
    · split
      · simp
      rename_i last atEnd
      split
      · rename_i up
        have mem := mem_of_getLast? atEnd
        exact absurd up (plain last mem).2.2
      · intro name mem
        exact plain name (dropLast_subset _ mem)
    · rename_i double
      exact forall_mem_append.mpr
        ⟨plain, forall_mem_singleton.mpr ⟨(not_or.mp named).1, (not_or.mp named).2, double⟩⟩

theorem plain_cleanPath_of_head {text : String}
    (inside : (cleanPath false text).head? ≠ some "..") :
    ∀ name ∈ cleanPath false text, PlainName name := by
  suffices shaped : ∀ (segments : List String) (ups : Nat) (out : List String),
      (∀ name ∈ out, PlainName name) →
      ∃ more rest, segments.foldl (cleanSegment false)
          (replicate ups ".." ++ out) = replicate more ".." ++ rest ∧
        ∀ name ∈ rest, PlainName name by
    obtain ⟨ups, rest, whole, plain⟩ := shaped (splitOnChar '/' text) 0 [] (by simp)
    have cleaned : cleanPath false text = replicate ups ".." ++ rest := whole
    cases ups with
    | zero =>
      rw [cleaned]
      exact plain
    | succ ups =>
      rw [cleaned] at inside
      exact absurd rfl inside
  intro segments
  induction segments with
  | nil => exact fun ups out plain => ⟨ups, out, rfl, plain⟩
  | cons segment segments ih =>
    intro ups out plain
    rw [foldl_cons, cleanSegment]
    split
    · exact ih ups out plain
    rename_i named
    split
    · rename_i up
      cases atEnd : out.getLast? with
      | some last =>
        have mem := mem_of_getLast? atEnd
        have notUp := (plain last mem).2.2
        have lastOf : (replicate ups ".." ++ out).getLast? = some last := by
          rw [getLast?_append, atEnd]
          rfl
        have some_ : out ≠ [] := by
          intro empty
          rw [empty] at atEnd
          cases atEnd
        simp only [lastOf, if_neg notUp, dropLast_append_of_ne_nil some_]
        exact ih ups out.dropLast fun name within =>
          plain name (dropLast_subset _ within)
      | none =>
        have empty := getLast?_eq_none_iff.mp atEnd
        subst empty
        have longer : (match (replicate ups ".." ++ []).getLast? with
            | none => if false = true then [] else [".."]
            | some last =>
              if last = ".." then replicate ups ".." ++ [] ++ [".."]
              else (replicate ups ".." ++ []).dropLast) =
            replicate (ups + 1) ".." ++ [] := by
          cases ups with
          | zero => rfl
          | succ ups =>
            simp [getLast?_replicate, replicate_succ', append_assoc]
        rw [longer]
        exact ih (ups + 1) [] (by simp)
    · rename_i double
      rw [append_assoc]
      apply ih
      exact forall_mem_append.mpr
        ⟨plain, forall_mem_singleton.mpr ⟨(not_or.mp named).1, (not_or.mp named).2, double⟩⟩

theorem intercalate_concat (some_ : names ≠ []) (name : String) :
    "/".intercalate (names ++ [name]) = "/".intercalate names ++ "/" ++ name := by
  rw [String.intercalate_append_of_ne_nil some_ (cons_ne_nil _ _), String.intercalate_singleton]

theorem cleanPath_intercalate (plain : ∀ name ∈ names, PlainName name)
    (free : ∀ name ∈ names, '/' ∉ name.toList) (some_ : names ≠ []) :
    cleanPath rooted ("/".intercalate names) = names ∧
      cleanPath rooted ("/".intercalate names ++ "/") = names := by
  have slash : String.singleton '/' = "/" := rfl
  constructor
  · have pieces := splitOnChar_intercalate '/' free some_
    rw [slash] at pieces
    rw [cleanPath, pieces, foldl_cleanSegment_plain rooted [] plain]
    rfl
  · have ended : ∀ part ∈ names ++ [""], '/' ∉ part.toList := by
      exact forall_mem_append.mpr ⟨free, forall_mem_singleton.mpr (by simp)⟩
    have pieces := splitOnChar_intercalate '/' ended (by simp)
    rw [slash, intercalate_concat some_, String.append_empty] at pieces
    rw [cleanPath, pieces, foldl_append, foldl_cleanSegment_plain rooted [] plain]
    rfl

theorem head_intercalate (plain : ∀ name ∈ names, PlainName name)
    (free : ∀ name ∈ names, '/' ∉ name.toList) (tail : String) (some_ : names ≠ []) :
    ("/".intercalate names ++ tail).toList.head? ≠ some '/' := by
  cases names with
  | nil => exact absurd rfl some_
  | cons first names =>
    have named := (plain first mem_cons_self).1
    have unslashed := free first mem_cons_self
    cases spelled : first.toList with
    | nil => exact absurd (String.toList_eq_nil_iff.mp spelled) named
    | cons letter letters =>
      have other : letter ≠ '/' := by
        intro same
        rw [spelled, same] at unslashed
        exact unslashed mem_cons_self
      cases names with
      | nil =>
        rw [String.intercalate_singleton, String.toList_append, spelled]
        exact fun same => other (Option.some.inj same)
      | cons second names =>
        rw [String.intercalate_cons_cons]
        simp only [String.toList_append, spelled]
        exact fun same => other (Option.some.inj same)

theorem joinPath_intercalate (plain : ∀ part ∈ names ++ [name], PlainName part)
    (free : ∀ part ∈ names ++ [name], '/' ∉ part.toList) (some_ : names ≠ []) :
    joinPath ("/".intercalate names) name = "/".intercalate (names ++ [name]) := by
  have relative := head_intercalate plain free "" (by simp)
  have cleaned := (cleanPath_intercalate false plain free (by simp)).1
  rw [String.append_empty, intercalate_concat some_] at relative
  rw [intercalate_concat some_] at cleaned
  have written : "/".intercalate names ≠ "" := by
    intro empty
    have read := (cleanPath_intercalate false
      (fun part mem => plain part (mem_append_left _ mem))
      (fun part mem => free part (mem_append_left _ mem)) some_).1
    rw [empty] at read
    exact some_ read.symm
  rw [joinPath, if_neg written, cleanText, if_neg relative, cleaned]
  cases names with
  | nil => exact absurd rfl some_
  | cons first names => rfl

end Cornus.Lib
