import Mathlib.Data.List.Basic

/-!
# Directory trees and path resolution

A tree is the list of its entries, each at the chain of names that leads to it
from the top.  `resolve` follows a path the way a kernel does: a symbolic link
is replaced by its text wherever it stands, except in the last position when
the caller does not follow links.  A bound on the steps stands for the limits
on links and on the length of paths; a resolution that does not reach its bound
does not depend on it.
-/

namespace Cornus.Lib

open List Option

abbrev Path := List String

structure LinkText where
  absolute : Bool
  parts : List String

inductive Node where
  | dir
  | file (inode : Nat)
  | link (text : LinkText)

def Node.isLink : Node → Bool
  | .link _ => true
  | _ => false

abbrev Tree := List (Path × Node)

inductive ResolveError where
  | enoent
  | enotdir
  | eloop
deriving DecidableEq

/-- Where a path leads: to an entry, to a free name in a directory, or
nowhere. -/
inductive Resolved where
  | found (path : Path)
  | vacant (path : Path)
  | failed (error : ResolveError)

namespace Tree

variable (tree : Tree) (path : Path)

def lookup : Option Node :=
  (tree.find? fun entry => decide (entry.1 = path)).map Prod.snd

def isDir : Bool :=
  match tree.lookup path with
  | some .dir => true
  | _ => false

def hasChildren : Bool :=
  tree.any fun entry => decide (path <+: entry.1 ∧ entry.1 ≠ path)

def remove : Tree :=
  tree.filter fun entry => decide (entry.1 ≠ path)

def removeAll : Tree :=
  tree.filter fun entry => decide (¬path <+: entry.1)

/-- Put an entry, with everything below it, in the place of another. -/
def move (old new : Path) : Tree :=
  (tree.remove new).map fun entry =>
    if old <+: entry.1 then (new ++ entry.1.drop old.length, entry.2)
    else entry

def resolve (tree : Tree) (follow : Bool) : Nat → Path → List String → Resolved
  | 0, _, _ => .failed .eloop
  | _ + 1, here, [] => .found here
  | fuel + 1, here, name :: rest =>
    if name = "" ∨ name = "." then resolve tree follow fuel here rest
    else if name = ".." then resolve tree follow fuel here.dropLast rest
    else
      match tree.lookup (here ++ [name]) with
      | none =>
        if rest = [] then .vacant (here ++ [name]) else .failed .enoent
      | some .dir => resolve tree follow fuel (here ++ [name]) rest
      | some (.file _) =>
        if rest = [] then .found (here ++ [name]) else .failed .enotdir
      | some (.link text) =>
        if rest = [] ∧ follow = false then .found (here ++ [name])
        else resolve tree follow fuel (if text.absolute then [] else here) (text.parts ++ rest)

/-! ## Entries -/

theorem lookup_cons (entry : Path × Node) (path : Path) :
    lookup (entry :: tree) path = if entry.1 = path then some entry.2 else tree.lookup path := by
  unfold lookup
  split_ifs with same
  · rw [find?_cons_of_pos (by simpa using same), map_some]
  · rw [find?_cons_of_neg (by simpa using same)]

variable {tree : Tree} {path : Path}

theorem lookup_of_isDir (dir : tree.isDir path = true) : tree.lookup path = some .dir := by
  rw [isDir] at dir
  split at dir
  · assumption
  · cases dir

theorem mem_of_lookup (found : tree.lookup path = some node) : (path, node) ∈ tree := by
  obtain ⟨entry, here, rfl⟩ := map_eq_some_iff.mp found
  have same : entry.1 = path := by simpa using find?_some here
  exact same ▸ mem_of_find?_eq_some here

theorem lookup_of_mem (mem : entry ∈ tree) : tree.lookup entry.1 ≠ none := by
  simp only [lookup, ne_eq, map_eq_none_iff, find?_eq_none, decide_eq_true_eq, not_forall, not_not]
  exact ⟨entry, mem, rfl⟩

variable {other : Path}

section

variable {keep : Path × Node → Bool}

theorem lookup_filter (kept : ∀ entry : Path × Node, entry.1 = path → keep entry = true) :
    lookup (tree.filter keep) path = tree.lookup path := by
  rw [lookup, lookup, find?_filter]
  congr 2
  funext entry
  by_cases same : entry.1 = path
  · simp [same, kept entry same]
  · simp [same]

theorem lookup_filter_none (dropped : ∀ entry : Path × Node, entry.1 = path → keep entry = false) :
    lookup (tree.filter keep) path = none := by
  simp only [lookup, map_eq_none_iff, find?_eq_none, mem_filter, decide_eq_true_eq]
  intro entry mem same
  rw [dropped entry same] at mem
  exact Bool.noConfusion mem.2

end

theorem lookup_remove (ne : other ≠ path) :
    (tree.remove path).lookup other = tree.lookup other :=
  lookup_filter fun _ same => by simpa [same] using ne

theorem lookup_remove_self (tree : Tree) (path : Path) : (tree.remove path).lookup path = none :=
  lookup_filter_none fun _ same => by simpa using same

theorem lookup_removeAll (outside : ¬path <+: other) :
    (tree.removeAll path).lookup other = tree.lookup other :=
  lookup_filter fun _ same => by simpa [same] using outside

theorem lookup_removeAll_below (below : path <+: other) :
    (tree.removeAll path).lookup other = none :=
  lookup_filter_none fun _ same => by simpa [same] using below

theorem lookup_move {old new : Path} (source : ¬old <+: path) (target : ¬new <+: path) :
    (tree.move old new).lookup path = tree.lookup path := by
  have ne : path ≠ new := by
    rintro rfl
    exact target (prefix_refl _)
  refine Eq.trans ?_ (lookup_remove ne)
  unfold move
  generalize tree.remove new = rest
  induction rest with
  | nil => rfl
  | cons entry rest ih =>
    rw [map_cons, lookup_cons, lookup_cons, ih]
    by_cases moved : old <+: entry.1
    · have elsewhere : new ++ entry.1.drop old.length ≠ path :=
        fun hit => target (hit ▸ prefix_append _ _)
      have before : entry.1 ≠ path := fun same => source (same ▸ moved)
      rw [if_pos moved, if_neg elsewhere, if_neg before]
    · rw [if_neg moved]

theorem mem_move (mem : (path, node) ∈ tree.move old new) :
    ∃ origin, (origin, node) ∈ tree ∧ (origin = path ∨ old <+: origin ∧ new <+: path) := by
  obtain ⟨entry, kept, equality⟩ := mem_map.mp mem
  have before := (mem_filter.mp kept).1
  split_ifs at equality with moved
  · cases equality
    exact ⟨entry.1, before, .inr ⟨moved, prefix_append _ _⟩⟩
  · exact ⟨entry.1, equality ▸ before, .inl (by rw [equality])⟩

/-! ## Resolution -/

variable {follow : Bool} {fuel : Nat} {here : Path}

theorem resolve_succ (bounded : tree.resolve follow fuel here parts ≠ .failed .eloop) :
    tree.resolve follow (fuel + 1) here parts = tree.resolve follow fuel here parts := by
  induction fuel generalizing here parts with
  | zero => exact absurd rfl bounded
  | succ fuel ih =>
    cases parts with
    | nil => rfl
    | cons name rest =>
      rw [resolve] at bounded ⊢
      conv_rhs => rw [resolve]
      by_cases plain : name = "" ∨ name = "."
      · simp only [if_pos plain] at bounded ⊢
        exact ih bounded
      simp only [if_neg plain] at bounded ⊢
      by_cases up : name = ".."
      · simp only [if_pos up] at bounded ⊢
        exact ih bounded
      simp only [if_neg up] at bounded ⊢
      cases found : tree.lookup (here ++ [name]) with
      | none => rfl
      | some node =>
        simp only [found] at bounded
        cases node with
        | dir => exact ih bounded
        | file inode => rfl
        | link text =>
          simp only at bounded ⊢
          by_cases last : rest = [] ∧ follow = false
          · simp only [if_pos last]
          simp only [if_neg last] at bounded ⊢
          exact ih bounded

theorem resolve_le (le : fuel ≤ more)
    (bounded : tree.resolve follow fuel here parts ≠ .failed .eloop) :
    tree.resolve follow more here parts = tree.resolve follow fuel here parts := by
  induction le with
  | refl => rfl
  | step _ ih =>
    rw [← ih] at bounded
    rw [resolve_succ bounded, ih]

theorem resolve_agree {other : Nat} (bounded : tree.resolve follow fuel here parts ≠ .failed .eloop)
    (otherBounded : tree.resolve follow other here parts ≠ .failed .eloop) :
    tree.resolve follow fuel here parts = tree.resolve follow other here parts := by
  rcases Nat.le_total fuel other with le | le
  · exact (resolve_le le bounded).symm
  · exact resolve_le le otherBounded

theorem resolve_append (more : second ≠ []) (reaches : ∀ error,
      tree.resolve follow fuel here (first ++ second) ≠ .failed error) :
    ∃ middle rest, tree.resolve true fuel here first = .found middle ∧
      tree.resolve follow rest middle second = tree.resolve follow fuel here (first ++ second) := by
  induction fuel generalizing here first with
  | zero => exact absurd rfl (reaches .eloop)
  | succ fuel ih =>
    cases first with
    | nil => exact ⟨here, fuel + 1, rfl, rfl⟩
    | cons name first =>
      have longer : first ++ second ≠ [] := fun empty => more (append_eq_nil_iff.mp empty).2
      simp only [cons_append, resolve] at reaches ⊢
      by_cases plain : name = "" ∨ name = "."
      · simp only [if_pos plain] at reaches ⊢
        exact ih reaches
      by_cases up : name = ".."
      · simp only [if_neg plain, if_pos up] at reaches ⊢
        exact ih reaches
      simp only [if_neg plain, if_neg up] at reaches ⊢
      cases found : tree.lookup (here ++ [name]) with
      | none =>
        simp only [found, if_neg longer] at reaches
        exact absurd rfl (reaches .enoent)
      | some node =>
        cases node with
        | dir =>
          simp only [found] at reaches ⊢
          exact ih reaches
        | file inode =>
          simp only [found, if_neg longer] at reaches
          exact absurd rfl (reaches .enotdir)
        | link text =>
          have notLast : ¬(first ++ second = [] ∧ follow = false) := fun last => longer last.1
          have followed : ¬(first = [] ∧ true = false) := fun last => Bool.noConfusion last.2
          simp only [found, if_neg notLast, if_neg followed, ← append_assoc] at reaches ⊢
          exact ih reaches

/-- All chains of names above the last lead to directories. -/
abbrev DirsAbove (tree : Tree) (here : Path) (names : List String) : Prop :=
  ∀ chain, chain <+: names → chain ≠ [] → chain ≠ names → tree.lookup (here ++ chain) = some .dir

/-- How the resolution of a path without links on the way ends. -/
inductive Straight (tree : Tree) (here : Path) (names : List String) : Resolved → Prop where
  | failed (error : ResolveError) : Straight tree here names (.failed error)
  | found (dirs : ∀ chain, chain <+: names → chain ≠ [] → chain ≠ names →
        tree.lookup (here ++ chain) = some .dir)
      (present : names ≠ [] → ∃ node, tree.lookup (here ++ names) = some node) :
      Straight tree here names (.found (here ++ names))
  | vacant (dirs : ∀ chain, chain <+: names → chain ≠ [] → chain ≠ names →
        tree.lookup (here ++ chain) = some .dir) (absent : tree.lookup (here ++ names) = none) :
      Straight tree here names (.vacant (here ++ names))

theorem Straight.cons (more : names ≠ []) (dir : tree.lookup (here ++ [name]) = some .dir)
    (rest : Straight tree (here ++ [name]) names resolved) :
    Straight tree here (name :: names) resolved := by
  have whole : here ++ [name] ++ names = here ++ name :: names := by simp
  have chains : DirsAbove tree (here ++ [name]) names → DirsAbove tree here (name :: names) := by
    intro dirs chain chained some_ proper
    cases chain with
    | nil => exact absurd rfl some_
    | cons first chain =>
      obtain ⟨rfl, inside⟩ := cons_prefix_cons.mp chained
      cases chain with
      | nil => exact dir
      | cons second chain =>
        have found := dirs (second :: chain) inside
          (cons_ne_nil _ _) (fun same => proper (by rw [same]))
        rwa [append_assoc] at found
  cases rest with
  | failed error => exact .failed error
  | found dirs present =>
    rw [whole]
    exact .found (chains dirs) fun _ => whole ▸ present more
  | vacant dirs absent =>
    rw [whole]
    exact .vacant (chains dirs) (whole ▸ absent)

theorem resolve_straight (plain : ∀ name ∈ names, name ≠ "" ∧ name ≠ "." ∧ name ≠ "..")
    (noLinks : ∀ chain, chain <+: names → chain ≠ [] → (chain ≠ names ∨ follow = true) →
      ∀ text, tree.lookup (here ++ chain) ≠ some (.link text)) :
    Straight tree here names (tree.resolve follow fuel here names) := by
  induction names generalizing fuel here with
  | nil =>
    cases fuel with
    | zero => exact .failed .eloop
    | succ fuel =>
      have whole : tree.resolve follow (fuel + 1) here [] = .found (here ++ []) := by
        rw [append_nil]
        rfl
      rw [whole]
      apply Straight.found
      · intro chain chained some_
        exact absurd (prefix_nil.mp chained) some_
      · intro some_
        exact absurd rfl some_
  | cons name names ih =>
    cases fuel with
    | zero => exact .failed .eloop
    | succ fuel =>
      obtain ⟨named, single, double⟩ := plain name mem_cons_self
      have first := noLinks [name] ⟨names, rfl⟩ (cons_ne_nil _ _)
      have only : names = [] → DirsAbove tree here (name :: names) := by
        intro last chain chained some_ proper
        subst last
        cases chain with
        | nil => exact absurd rfl some_
        | cons other chain =>
          obtain ⟨rfl, inside⟩ := cons_prefix_cons.mp chained
          rw [prefix_nil.mp inside] at proper
          exact absurd rfl proper
      rw [resolve, if_neg (not_or.mpr ⟨named, single⟩), if_neg double]
      cases found : tree.lookup (here ++ [name]) with
      | none =>
        simp only
        split
        · rename_i last
          subst last
          exact .vacant (only rfl) found
        · exact .failed .enoent
      | some node =>
        cases node with
        | file inode =>
          simp only
          split
          · rename_i last
            subst last
            exact .found (only rfl) fun _ => ⟨_, found⟩
          · exact .failed .enotdir
        | link text =>
          simp only
          split
          · rename_i last
            obtain ⟨last, -⟩ := last
            subst last
            exact .found (only rfl) fun _ => ⟨_, found⟩
          · rename_i followed
            apply absurd found (first _ text)
            by_cases last : names = []
            · right
              cases follow with
              | true => rfl
              | false => exact absurd ⟨last, rfl⟩ followed
            · left
              intro same
              exact last (cons.inj same).2.symm
        | dir =>
          have rest : Straight tree (here ++ [name]) names
              (tree.resolve follow fuel (here ++ [name]) names) := by
            apply ih
            · intro other mem
              exact plain other (mem_cons_of_mem _ mem)
            · intro chain chained some_ open_ text
              have inside := noLinks (name :: chain) (cons_prefix_cons.mpr ⟨rfl, chained⟩)
                (cons_ne_nil _ _) (open_.imp_left fun proper same =>
                  proper (cons.inj same).2) text
              rwa [append_assoc]
          by_cases last : names = []
          · subst last
            cases fuel with
            | zero => exact .failed .eloop
            | succ fuel =>
              exact .found (only rfl) fun _ => ⟨_, found⟩
          · exact rest.cons last found

theorem resolve_reaches (some_ : names ≠ [])
    (plain : ∀ name ∈ names, name ≠ "" ∧ name ≠ "." ∧ name ≠ "..")
    (dirs : DirsAbove tree here names)
    (last : follow = true → ∀ text, tree.lookup (here ++ names) ≠ some (.link text))
    (enough : names.length < fuel) :
    tree.resolve follow fuel here names = match tree.lookup (here ++ names) with
      | none => .vacant (here ++ names)
      | some _ => .found (here ++ names) := by
  induction names generalizing fuel here with
  | nil => exact absurd rfl some_
  | cons name names ih =>
    cases fuel with
    | zero => exact absurd enough (Nat.not_lt_zero _)
    | succ fuel =>
      obtain ⟨named, single, double⟩ := plain name mem_cons_self
      rw [resolve, if_neg (not_or.mpr ⟨named, single⟩), if_neg double]
      cases names with
      | nil =>
        cases found : tree.lookup (here ++ [name]) with
        | none => rfl
        | some node =>
          cases node with
          | file inode => rfl
          | dir =>
            cases fuel with
            | zero => exact absurd enough (Nat.lt_irrefl _)
            | succ fuel => rfl
          | link text =>
            cases follow with
            | false => rfl
            | true => exact absurd found (last rfl text)
      | cons second names =>
        have first : tree.lookup (here ++ [name]) = some .dir :=
          dirs [name] ⟨second :: names, rfl⟩ (cons_ne_nil _ _) (by simp)
        have whole : here ++ [name] ++ second :: names = here ++ name :: second :: names := by simp
        rw [first]
        simp only
        rw [ih (cons_ne_nil _ _) (fun other mem =>
          plain other (mem_cons_of_mem _ mem)) _ _
          (Nat.lt_of_succ_lt_succ enough), whole]
        · intro chain chained inside proper
          have below := dirs (name :: chain) (cons_prefix_cons.mpr ⟨rfl, chained⟩) (cons_ne_nil _ _)
            (fun same => proper (cons.inj same).2)
          rwa [append_assoc]
        · intro followed text
          rw [whole]
          exact last followed text

theorem resolve_dirs (plain : ∀ name ∈ names, name ≠ "" ∧ name ≠ "." ∧ name ≠ "..")
    (dirs : ∀ chain, chain <+: names → chain ≠ [] → tree.lookup (here ++ chain) = some .dir)
    (bounded : tree.resolve follow fuel here names ≠ .failed .eloop) :
    tree.resolve follow fuel here names = .found (here ++ names) := by
  rw [← resolve_le (Nat.le_add_right fuel (names.length + 1)) bounded]
  by_cases some_ : names = []
  · rw [some_, append_nil]
    rfl
  · have dir := dirs names (prefix_refl _) some_
    rw [resolve_reaches some_ plain (fun chain chained named _ => dirs chain chained named) _
      (by omega), dir]
    simp [dir]

section

variable (some_ : path ≠ []) (plain : ∀ name ∈ path, name ≠ "" ∧ name ≠ "." ∧ name ≠ "..")
  (dirs : DirsAbove tree [] path)
include some_ plain dirs

theorem resolve_present (present : tree.lookup path = some node)
    (last : follow = true → ∀ text, node ≠ .link text) (enough : path.length < fuel) :
    tree.resolve follow fuel [] path = .found path := by
  rw [resolve_reaches some_ plain dirs _ enough, nil_append, present]
  rw [nil_append, present]
  intro follows text same
  exact last follows text (some.inj same)

theorem resolve_absent (absent : tree.lookup path = none)
    (enough : path.length < fuel) : tree.resolve follow fuel [] path = .vacant path := by
  rw [resolve_reaches some_ plain dirs _ enough, nil_append, absent]
  rw [nil_append, absent]
  exact fun _ text same => nomatch same

end

end Tree

end Cornus.Lib
