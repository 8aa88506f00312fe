import Cornus.Tarcopy.Confinement
import Cornus.Tarcopy.Pack

/-!
# What an archive lists

The archive of a directory lists every object below it once, with its names
from the directory down, and a directory before what it holds.
-/

namespace Cornus.Tarcopy

open Lib List Option World Tree

/-- An object with what lies below it, each with its names in the archive. -/
def walkChild (world : World) (descend : Path → List String → List (Path × Shown)) (dir : Path)
    (arc : List String) (name : String) : List (Path × Shown) :=
  match world.shownAt (dir ++ [name]) with
  | none => []
  | some shown =>
    (arc ++ [name], shown) ::
      if shown.isDir then descend (dir ++ [name]) (arc ++ [name]) else []

/-- The objects below a directory in the order of the walk. -/
def walk (world : World) : Nat → Path → List String → List (Path × Shown)
  | 0, _, _ => []
  | fuel + 1, dir, arc =>
    (childNames world.tree dir).flatMap (walkChild world (walk world fuel) dir arc)

def packItem (item : Path × Shown) : Entry :=
  packObject ("/".intercalate item.1) item.2

/-- Names that a file system has: no slash is in them, and they are not those
with a meaning of their own. -/
def FileName (name : String) : Prop :=
  PlainName name ∧ '/' ∉ name.toList

instance (name : String) : Decidable (FileName name) :=
  inferInstanceAs (Decidable (_ ∧ _))

/-- Every entry of the tree has names that a file system has. -/
def Named (tree : Tree) : Prop :=
  ∀ entry ∈ tree, ∀ name ∈ entry.1, FileName name

/-- What is asked of `fs.RootPath` besides: a step into a directory leads to
that directory. -/
def Walks (rootPath : RootPath) : Prop :=
  ∀ tree path host name, rootPath tree path = some host → PlainName name →
    tree.lookup (host ++ [name]) = some .dir →
      rootPath tree (path ++ [name]) = some (host ++ [name])

/-- Every object comes once, and after the directory it lies in. -/
def Ordered : List (Path × Shown) → List (Path × Shown) → Prop
  | _, [] => True
  | done, item :: rest =>
    (∀ earlier ∈ done, earlier.1 ≠ item.1) ∧ item.1 ≠ [] ∧
      (item.1.dropLast = [] ∨
        ∃ attr, (item.1.dropLast, Shown.dir attr) ∈ done) ∧ Ordered (done ++ [item]) rest

theorem ordered_append (front : Ordered done first) (back : Ordered (done ++ first) second) :
    Ordered done (first ++ second) := by
  induction first generalizing done with
  | nil =>
    rw [append_nil] at back
    exact back
  | cons item first ih =>
    obtain ⟨fresh, some_, above, later⟩ := front
    refine ⟨fresh, some_, above, ih later ?_⟩
    rw [append_assoc]
    exact back

variable {tree : Tree} {world : World} {dir : Path} {name : String}

theorem mem_childNames : name ∈ childNames tree dir ↔ tree.lookup (dir ++ [name]) ≠ none := by
  rw [childNames, mem_sortStrings, mem_dedup, mem_filterMap]
  constructor
  · intro found
    obtain ⟨entry, mem, named⟩ := found
    split at named
    · rename_i below
      have path : entry.1 = dir ++ [name] := by
        rw [← below]
        exact (dropLast_append_getLast? name named).symm
      rw [← path]
      exact lookup_of_mem mem
    · cases named
  · intro present
    obtain ⟨node, found⟩ := ne_none_iff_exists'.mp present
    refine ⟨_, mem_of_lookup found, ?_⟩
    simp

theorem nodup_childNames (tree : Tree) (dir : Path) : (childNames tree dir).Nodup :=
  (perm_insertionSort _ _).nodup_iff.mpr (nodup_dedup _)

theorem shownAt_eq_none : world.shownAt path = none ↔ world.tree.lookup path = none := by
  rw [shownAt]
  split <;> simp_all

theorem lookup_of_shownAt (here : world.shownAt path = some shown) :
    world.tree.lookup path ≠ none := by
  rw [ne_eq, ← shownAt_eq_none, here]
  exact some_ne_none _

theorem shownAt_above (proper : Proper world.tree)
    (here : world.shownAt (dir ++ name :: second :: names) = some shown) :
    world.shownAt (dir ++ [name]) = some (.dir (world.attr (dir ++ [name]))) := by
  have above : world.tree.lookup (dir ++ [name]) = some .dir := by
    apply proper.dirs_above (lookup_of_shownAt here)
    · exact ⟨second :: names, by simp⟩
    · simp
    · simp
  rw [shownAt, above]

theorem isDir_shownAt (here : world.shownAt path = some shown) :
    shown.isDir = true ↔ world.tree.lookup path = some .dir := by
  rw [shownAt] at here
  split at here <;> cases here <;> simp_all [Shown.isDir]

theorem length_lt_treeDepth (mem : entry ∈ tree) : entry.1.length < treeDepth tree := by
  induction tree with
  | nil => cases mem
  | cons first rest ih =>
    simp only [treeDepth, map_cons, foldr_cons] at ih ⊢
    rcases mem_cons.mp mem with same | later
    · rw [same]
      omega
    · have shorter := ih later
      omega

theorem length_lt_of_lookup (present : tree.lookup path ≠ none) : path.length < treeDepth tree := by
  obtain ⟨node, found⟩ := ne_none_iff_exists'.mp present
  exact length_lt_treeDepth (mem_of_lookup found)

theorem mem_walkChild : item ∈ walkChild world descend dir arc name ↔
      ∃ shown, world.shownAt (dir ++ [name]) = some shown ∧
        (item = (arc ++ [name], shown) ∨ shown.isDir = true ∧
          item ∈ descend (dir ++ [name]) (arc ++ [name])) := by
  rw [walkChild]
  cases here : world.shownAt (dir ++ [name]) with
  | none => simp
  | some shown =>
    simp only [mem_cons, some.injEq, exists_eq_left']
    cases shown.isDir with
    | true => simp
    | false => simp

theorem mem_walk_succ : item ∈ walk world (fuel + 1) dir arc ↔
      ∃ name shown, world.shownAt (dir ++ [name]) = some shown ∧
        (item = (arc ++ [name], shown) ∨ shown.isDir = true ∧
          item ∈ walk world fuel (dir ++ [name]) (arc ++ [name])) := by
  simp only [walk, mem_flatMap, mem_walkChild]
  constructor
  · intro found
    obtain ⟨name, -, shown, here, place⟩ := found
    exact ⟨name, shown, here, place⟩
  · intro found
    obtain ⟨name, shown, here, place⟩ := found
    refine ⟨name, ?_, shown, here, place⟩
    exact mem_childNames.mpr (lookup_of_shownAt here)

theorem walk_below (mem : item ∈ walk world fuel dir arc) :
    ∃ names, names ≠ [] ∧ item.1 = arc ++ names ∧ world.shownAt (dir ++ names) = some item.2 := by
  induction fuel generalizing dir arc with
  | zero => cases mem
  | succ fuel ih =>
    obtain ⟨name, shown, here, place⟩ := mem_walk_succ.mp mem
    rcases place with same | ⟨-, below⟩
    · rw [same]
      exact ⟨[name], cons_ne_nil _ _, rfl, here⟩
    · obtain ⟨names, -, path, found⟩ := ih below
      refine ⟨name :: names, cons_ne_nil _ _, ?_, ?_⟩
      · rw [path, append_assoc]
        rfl
      · rw [← found, append_assoc]
        rfl

theorem mem_walk (proper : Proper world.tree) (deep : treeDepth world.tree ≤ fuel + dir.length)
    (some_ : names ≠ []) (here : world.shownAt (dir ++ names) = some shown) :
    (arc ++ names, shown) ∈ walk world fuel dir arc := by
  induction fuel generalizing dir arc names with
  | zero =>
    have short := length_lt_of_lookup (lookup_of_shownAt here)
    rw [length_append] at short
    omega
  | succ fuel ih =>
    cases names with
    | nil => exact absurd rfl some_
    | cons name names =>
      apply mem_walk_succ.mpr
      cases names with
      | nil => exact ⟨name, shown, here, .inl rfl⟩
      | cons second names =>
        have whole : dir ++ name :: second :: names = dir ++ [name] ++ second :: names := by simp
        have shallow : treeDepth world.tree ≤ fuel + (dir ++ [name]).length := by
          rw [length_append, length_singleton]
          omega
        have found : (arc ++ [name] ++ second :: names, shown) ∈
            walk world fuel (dir ++ [name]) (arc ++ [name]) :=
          ih shallow (cons_ne_nil _ _) (whole ▸ here)
        rw [append_assoc] at found
        exact ⟨name, _, shownAt_above proper here, .inr ⟨rfl, found⟩⟩

theorem not_prefix_of_ne {path : List String}
    (ne : name ≠ other) (below : arc ++ [name] <+: path) : ¬arc ++ [other] <+: path := by
  intro otherBelow
  have same := prefix_of_prefix_length_le below otherBelow (by simp)
  have equal := same.eq_of_length (by simp)
  exact ne (List.cons.inj (append_cancel_left equal)).1

theorem walkChild_below (mem : item ∈ walkChild world (walk world fuel) dir arc name) :
    arc ++ [name] <+: item.1 := by
  obtain ⟨shown, -, same | ⟨-, below⟩⟩ := mem_walkChild.mp mem
  · rw [same]
  · obtain ⟨names, -, path, -⟩ := walk_below below
    exact ⟨names, path.symm⟩

theorem ordered_walkChild (above : arc = [] ∨ ∃ attr, (arc, Shown.dir attr) ∈ done)
    (apart : ∀ earlier ∈ done, ¬arc ++ [name] <+: earlier.1)
    (descended : ∀ done : List (Path × Shown), (∃ attr, (arc ++ [name], Shown.dir attr) ∈ done) →
      (∀ earlier ∈ done, ∀ names, names ≠ [] → earlier.1 ≠ arc ++ [name] ++ names) →
      Ordered done (descend (dir ++ [name]) (arc ++ [name]))) :
    Ordered done (walkChild world descend dir arc name) := by
  rw [walkChild]
  cases world.shownAt (dir ++ [name]) with
  | none => trivial
  | some shown =>
    refine ⟨?_, by simp, ?_, ?_⟩
    · intro earlier mem same
      exact apart earlier mem (same ▸ prefix_refl _)
    · rw [dropLast_concat]
      exact above
    · cases shown with
      | dir attr =>
        apply descended
        · exact ⟨attr, mem_append_right _ mem_cons_self⟩
        · intro earlier mem names some_ same
          rcases mem_append.mp mem with old | new
          · exact apart earlier old ⟨names, same.symm⟩
          · rw [mem_singleton.mp new] at same
            exact some_ (self_eq_append_right.mp same)
      | file content attr => trivial
      | link text attr => trivial

theorem ordered_walk (above : ∃ attr, (arc, Shown.dir attr) ∈ done)
    (fresh : ∀ earlier ∈ done, ∀ names, names ≠ [] → earlier.1 ≠ arc ++ names) :
    Ordered done (walk world fuel dir arc) := by
  induction fuel generalizing dir arc done with
  | zero => trivial
  | succ fuel ih =>
    rw [walk]
    have distinct := nodup_childNames world.tree dir
    have unmet : ∀ name ∈ childNames world.tree dir, ∀ earlier ∈ done,
        ¬arc ++ [name] <+: earlier.1 := by
      intro name _ earlier mem below
      obtain ⟨names, path⟩ := below
      apply fresh earlier mem (name :: names) (cons_ne_nil _ _)
      rw [← path, append_assoc]
      rfl
    clear fresh
    generalize childNames world.tree dir = children at distinct unmet
    -- The children that are left, behind what the earlier ones have added.
    induction children generalizing done with
    | nil => trivial
    | cons name children inner =>
      obtain ⟨ne, distinctRest⟩ := nodup_cons.mp distinct
      rw [flatMap_cons]
      apply ordered_append
      · exact ordered_walkChild (.inr above) (unmet name mem_cons_self) fun done => ih
      · apply inner _ distinctRest
        · intro other mem earlier found
          rcases mem_append.mp found with old | new
          · exact unmet other (mem_cons_of_mem _ mem) earlier old
          apply not_prefix_of_ne _ (walkChild_below new)
          intro same
          exact ne (same ▸ mem)
        · obtain ⟨attr, mem⟩ := above
          exact ⟨attr, mem_append_left _ mem⟩

/-! ## The entries are those of the walk -/

section Entries

variable {dir hostDir : Path} {base : String}

theorem readDir_real (real : RealDir root world.tree dir) :
    readDir linkSteps world dir = .ok (childNames world.tree dir) := by
  rw [readDir, real.resolve]
  by_cases top : dir = []
  · simp [top]
  · simp [isDir, real.dirs dir (prefix_refl _) top]

theorem packDir_eq (walks : Walks rootPath) (named : Named world.tree)
    (given : rootPath world.tree cpath = some dir)
    (real : RealDir root world.tree dir) (deep : treeDepth world.tree ≤ fuel + dir.length)
    (arcNames : ∀ name ∈ arc, FileName name) (some_ : arc ≠ []) :
    packDir linkSteps rootPath world fuel cpath ("/".intercalate arc) =
      .ok ((walk world fuel dir arc).map packItem) := by
  induction fuel generalizing cpath dir arc with
  | zero =>
    by_cases top : dir = []
    · rw [top, treeDepth] at deep
      simp at deep
    · have short := length_lt_of_lookup (ne_of_eq_of_ne
        (real.dirs dir (prefix_refl _) top) (some_ne_none _))
      omega
  | succ fuel ih =>
    rw [packDir, given]
    apply (bind_of_ok (readDir_real real)).trans
    rw [walk, map_flatMap]
    apply gatherAll_of_ok
    intro name mem
    have present := mem_childNames.mp mem
    obtain ⟨node, found⟩ := ne_none_iff_exists'.mp present
    have fileName : FileName name := named _ (mem_of_lookup found) name (by simp)
    have longer : ∀ part ∈ arc ++ [name], FileName part := by
      exact forall_mem_append.mpr ⟨arcNames, forall_mem_singleton.mpr fileName⟩
    have joined := joinPath_intercalate (fun part inside => (longer part inside).1)
      (fun part inside => (longer part inside).2) some_
    rw [packChild, walkChild, joined]
    cases here : world.shownAt (dir ++ [name]) with
    | none => rfl
    | some shown =>
      cases isDir : shown.isDir with
      | false =>
        simp only [isDir]
        rfl
      | true =>
        have below := (isDir_shownAt here).mp isDir
        have descended := ih (walks _ _ _ _ given fileName.1 below) (real.snoc fileName.1 below) (by
            rw [length_append, length_singleton]
            omega) longer (by simp)
        simp only [isDir, if_true]
        exact bind_of_ok descended

/-- The object that a container path names, with what lies below it. -/
def listing (world : World) (hostDir : Path) (base : String) : List (Path × Shown) :=
  walkChild world (walk world (treeDepth world.tree)) hostDir [] base

theorem ordered_listing (hostDir : Path) (base : String) :
    Ordered [] (listing world hostDir base) := by
  apply ordered_walkChild (.inl rfl)
  · intro earlier mem
    cases mem
  · exact fun done => ordered_walk

theorem mem_listing (proper : Proper world.tree) :
    item ∈ listing world hostDir base ↔ ∃ names, item.1 = base :: names ∧
        world.shownAt (hostDir ++ base :: names) = some item.2 := by
  rw [listing, mem_walkChild]
  constructor
  · intro found
    obtain ⟨shown, here, same | ⟨-, below⟩⟩ := found
    · rw [same]
      exact ⟨[], rfl, here⟩
    · obtain ⟨names, -, path, found⟩ := walk_below below
      rw [append_assoc] at found
      exact ⟨names, path, found⟩
  · intro found
    obtain ⟨names, path, here⟩ := found
    cases names with
    | nil => exact ⟨item.2, here, .inl (Prod.ext path rfl)⟩
    | cons name names =>
      have whole : hostDir ++ base :: name :: names = hostDir ++ [base] ++ name :: names := by simp
      have met : ([base] ++ name :: names, item.2) ∈ walk world
          (treeDepth world.tree) (hostDir ++ [base]) [base] :=
        mem_walk proper (Nat.le_add_right _ _) (cons_ne_nil _ _) (whole ▸ here)
      have same : item = ([base] ++ name :: names, item.2) := Prod.ext path rfl
      rw [same]
      exact ⟨_, shownAt_above proper here, .inr ⟨rfl, met⟩⟩

theorem pack_eq (walks : Walks rootPath) (proper : Proper world.tree) (named : Named world.tree)
    {path : String} {above : Path} (split : cleanPath true path = above ++ [base])
    (given : rootPath world.tree above = some hostDir) (clear : ClearDir root world.tree hostDir)
    (present : world.tree.lookup (hostDir ++ [base]) ≠ none) :
    pack linkSteps rootPath world path = .ok ((listing world hostDir base).map packItem) := by
  obtain ⟨node, found⟩ := ne_none_iff_exists'.mp present
  have fileName : FileName base := named _ (mem_of_lookup found) base (by simp)
  have dirs := proper.dirs_above present
  have real : RealDir root world.tree hostDir := by
    refine ⟨clear.inside, clear.plain, ?_⟩
    intro chain chained some_
    apply dirs chain (chained.trans (prefix_append _ _)) some_
    intro same
    rw [same] at chained
    exact not_below_root (prefix_refl _) (prefix_refl _) chained
  have reached : world.resolve linkSteps false (hostDir ++ [base]) =
      .found (hostDir ++ [base]) := by
    apply resolve_present (by simp) _ dirs found _ (by omega)
    · exact forall_mem_append.mpr ⟨clear.plain, forall_mem_singleton.mpr fileName.1⟩
    · simp
  have parent : resolveParent rootPath world.tree (above ++ [base]) = some (hostDir ++ [base]) := by
    simp [resolveParent, given]
  have called : baseName (above ++ [base]) = base := by
    simp [baseName]
  have only : "/".intercalate [base] = base := String.intercalate_singleton
  rw [pack, split, parent, called]
  simp only [look, reached]
  rw [listing, walkChild, nil_append]
  cases here : world.shownAt (hostDir ++ [base]) with
  | none => exact absurd (shownAt_eq_none.mp here) present
  | some shown =>
    cases isDir : shown.isDir with
    | false =>
      simp [isDir, packItem, only]
    | true =>
      have below := (isDir_shownAt here).mp isDir
      have descended : packDir linkSteps rootPath world
          (treeDepth world.tree) (above ++ [base]) ("/".intercalate [base]) = .ok _ :=
        packDir_eq walks named (walks _ _ _ _ given fileName.1 below)
          (real.snoc fileName.1 below) (Nat.le_add_right _ _)
          (by simpa using fileName) (cons_ne_nil _ _)
      rw [only] at descended
      simp only [isDir, if_true, map_cons, packItem, only]
      exact bind_of_ok descended

end Entries

end Cornus.Tarcopy
