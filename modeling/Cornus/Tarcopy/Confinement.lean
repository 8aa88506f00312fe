import Cornus.Lib.Attempt
import Cornus.Tarcopy.Unpack
import Mathlib.Data.List.Infix

/-!
# What an extraction touches

Every entry is put at a path without links on the way, so each call acts on that
path itself and stays inside the root.  The times of directories are restored by
remembered paths when all entries are done; those still lead inside as long as
no entry has replaced a remembered directory or one above it.
-/

namespace Cornus.Tarcopy

open Lib List Option World

/-- Every entry has a directory above it. -/
def Proper (tree : Tree) : Prop :=
  ∀ path name, tree.lookup (path ++ [name]) ≠ none → path = [] ∨ tree.lookup path = some .dir

variable (root : Path) (tree : Tree) (path : Path)

/-- A path of directories that starts with the root. -/
structure RealDir : Prop where
  inside : root <+: path
  plain : ∀ name ∈ path, PlainName name
  dirs : ∀ chain, chain <+: path → chain ≠ [] → tree.lookup chain = some .dir

/-- A path without links that starts with the root. -/
structure ClearDir : Prop where
  inside : root <+: path
  plain : ∀ name ∈ path, PlainName name
  noLinks : ∀ chain, chain <+: path → chain ≠ [] → ∀ text, tree.lookup chain ≠ some (.link text)

/-- What is asked of `fs.RootPath`: the directories on the path it gives are all
inside the root. -/
def Confines (rootPath : RootPath) : Prop :=
  ∀ tree path host, RealDir root tree root → rootPath tree path = some host →
    ClearDir root tree host

/-- Nothing outside the root was touched. -/
def Inside (world : World) : Prop :=
  ∀ path ∈ world.touched, root <+: path

structure Good (world : World) : Prop where
  real : RealDir root world.tree root
  proper : Proper world.tree
  inside : Inside root world

section Paths

variable {root : Path} {tree : Tree} {chain : List String} {part : Path} {follow : Bool}
  {other : Tree}

theorem proper_chain (chained : chain <+: names ++ [name])
    (short : chain ≠ names ++ [name]) : chain <+: names := by
  rcases prefix_concat_iff.mp chained with same | inside
  · exact absurd same short
  · exact inside

variable {path : Path}

theorem Proper.dirs_above (proper : Proper tree) (present : tree.lookup path ≠ none) :
    Tree.DirsAbove tree [] path := by
  induction path using List.reverseRecOn with
  | nil =>
    intro chain chained some_
    exact absurd (prefix_nil.mp chained) some_
  | append_singleton path name ih =>
    intro chain chained some_ short
    have inside := proper_chain chained short
    rcases proper path name present with empty | dir
    · rw [empty] at inside
      exact absurd (prefix_nil.mp inside) some_
    · by_cases whole : chain = path
      · rw [whole]
        exact dir
      · exact ih (by simp [dir]) chain inside some_ whole

theorem proper_of_entries (nested : ∀ entry ∈ tree, entry.1.dropLast = [] ∨
      tree.isDir entry.1.dropLast = true) : Proper tree := by
  intro path name present
  obtain ⟨node, found⟩ := ne_none_iff_exists'.mp present
  rcases nested _ (Tree.mem_of_lookup found) with top | dir
  · rw [dropLast_concat] at top
    exact .inl top
  · rw [dropLast_concat] at dir
    exact .inr (Tree.lookup_of_isDir dir)

theorem realDir_of_inits (inside : root <+: path) (plain : ∀ name ∈ path, PlainName name)
    (dirs : ∀ chain ∈ path.inits, chain ≠ [] → tree.isDir chain = true) :
    RealDir root tree path where
  inside
  plain
  dirs chain chained some_ := Tree.lookup_of_isDir (dirs chain ((mem_inits _ _).mpr chained) some_)

theorem not_below_root (inside : root <+: path) (above : chain <+: root) :
    ¬path ++ [base] <+: chain := by
  intro below
  have first := inside.length_le
  have second := (below.trans above).length_le
  rw [length_append, length_singleton] at second
  omega

theorem inside_of_absent (real : RealDir root tree root) {whole : Path}
    (inside : root <+: whole) (chained : path ++ [base] <+: whole)
    (absent : tree.lookup (path ++ [base]) = none) : root <+: path := by
  have apart : ¬path ++ [base] <+: root := by
    intro above
    have dir := real.dirs _ above (by simp)
    rw [absent] at dir
    cases dir
  rcases prefix_or_prefix_of_prefix inside chained with below | above
  · apply proper_chain below
    intro same
    exact apart (same ▸ prefix_refl _)
  · exact absurd above apart

theorem ClearDir.shorter (clear : ClearDir root tree path) (inside : root <+: part)
    (chained : part <+: path) : ClearDir root tree part where
  inside
  plain name member := clear.plain name (chained.subset member)
  noLinks chain below := clear.noLinks chain (below.trans chained)

theorem ClearDir.straight (clear : ClearDir root tree path) (plain : PlainName base)
    (last : follow = true → ∀ text, tree.lookup (path ++ [base]) ≠ some (.link text)) :
    Tree.Straight tree [] (path ++ [base]) (tree.resolve follow fuel [] (path ++ [base])) := by
  apply Tree.resolve_straight
  · exact forall_mem_append.mpr ⟨clear.plain, forall_mem_singleton.mpr plain⟩
  · intro chain chained some_ open_ text
    rw [nil_append]
    by_cases whole : chain = path ++ [base]
    · rw [whole]
      exact last (open_.resolve_left fun apart => apart whole) text
    · exact clear.noLinks chain (proper_chain chained whole) some_ text

theorem RealDir.clear (real : RealDir root tree path) : ClearDir root tree path where
  __ := real
  noLinks chain chained some_ text := by
    rw [real.dirs chain chained some_]
    simp

theorem RealDir.straight (real : RealDir root tree path) :
    Tree.Straight tree [] path (tree.resolve follow fuel [] path) := by
  apply Tree.resolve_straight real.plain
  intro chain chained some_ _ text
  rw [nil_append]
  exact real.clear.noLinks chain chained some_ text

theorem RealDir.shorter (real : RealDir root tree path) (inside : root <+: part)
    (chained : part <+: path) : RealDir root tree part where
  inside
  plain name member := real.plain name (chained.subset member)
  dirs chain below := real.dirs chain (below.trans chained)

theorem RealDir.snoc (real : RealDir root tree path) (plain : PlainName base)
    (dir : tree.lookup (path ++ [base]) = some .dir) : RealDir root tree (path ++ [base]) where
  inside := real.inside.trans (prefix_append _ _)
  plain name member := by
    rcases mem_append.mp member with above | here
    · exact real.plain name above
    · rw [mem_singleton.mp here]
      exact plain
  dirs chain chained some_ := by
    rcases prefix_concat_iff.mp chained with same | inside
    · rw [same]
      exact dir
    · exact real.dirs chain inside some_

theorem ClearDir.of_lookup (clear : ClearDir root tree path)
    (same : ∀ chain, chain <+: path → other.lookup chain = tree.lookup chain) :
    ClearDir root other path where
  __ := clear
  noLinks chain chained some_ text := by
    rw [same chain chained]
    exact clear.noLinks chain chained some_ text

theorem RealDir.of_lookup (real : RealDir root tree path)
    (same : ∀ chain, chain <+: path → tree.lookup chain = some .dir →
      other.lookup chain = some .dir) : RealDir root other path where
  __ := real
  dirs chain chained some_ := same chain chained (real.dirs chain chained some_)

end Paths

section Worlds

variable {root : Path} {world : World} (path : Path) (change : Attr → Attr)

@[simp]
theorem tree_setAttr : (world.setAttr path change).tree = world.tree := by
  rw [setAttr]
  split <;> rfl

@[simp]
theorem touched_setAttr : (world.setAttr path change).touched = world.touched := by
  rw [setAttr]
  split <;> rfl

@[simp]
theorem tree_enter (node : Node) : (world.enter path node).tree = (path, node) :: world.tree := by
  simp [enter, stamp, touch]

@[simp]
theorem touched_enter (node : Node) :
    (world.enter path node).touched = world.touched ++ [path] := by
  simp [enter, stamp, touch]

variable {next : World} {path : Path}

theorem Good.of_tree (good : Good root world) (tree : next.tree = world.tree)
    (touched : ∀ path ∈ next.touched, path ∈ world.touched ∨ root <+: path) : Good root next where
  real := tree ▸ good.real
  proper := tree ▸ good.proper
  inside path member := (touched path member).elim (good.inside path) id

theorem Good.setAttr (good : Good root world) (inside : root <+: path) (change : Attr → Attr) :
    Good root ((world.setAttr path change).touch path) := by
  apply good.of_tree
  · simp [touch]
  · intro other mem
    simp only [touch, touched_setAttr, mem_append, mem_singleton] at mem
    rcases mem with old | rfl
    · exact .inl old
    · exact .inr inside

theorem RealDir.resolve {linkSteps : Nat} {dir : Path}
    (real : RealDir root world.tree dir) (follow : Bool) :
    world.resolve linkSteps follow dir = .found dir := by
  by_cases top : dir = []
  · rw [top, World.resolve, length_nil, Nat.zero_add, Nat.add_comm, Tree.resolve]
  exact Tree.resolve_present top real.plain
    (fun chain chained some_ _ => real.dirs chain chained some_) (real.dirs dir (prefix_refl _) top)
    (by simp) (by omega)

end Worlds

variable {root : Path} {linkSteps : Nat} {world : World} {path : Path} {base : String}

theorem inside_append (inside : root <+: path) (base : String) : root <+: path ++ [base] :=
  inside.trans (prefix_append _ _)

variable {target : Path}

theorem changeAttr_ends (good : Good root world) (inside : root <+: target)
    (straight : Tree.Straight world.tree [] target
      (world.resolve linkSteps follow target)) (change : Option Node → Attr → Attr) :
    Ends (Inside root) (fun next => Good root next ∧ next.tree = world.tree)
      (world.changeAttr linkSteps follow target change) := by
  rw [changeAttr]
  generalize world.resolve linkSteps follow target = resolved at straight ⊢
  cases straight with
  | failed error | vacant dirs absent => exact .of_error good.inside
  | found dirs present =>
    apply Ends.of_ok
    exact ⟨good.setAttr inside _, by simp [touch]⟩

/-- The tree has a new entry at a name that was free. -/
structure Entered (world next : World) (target : Path) (node : Node) : Prop where
  absent : world.tree.lookup target = none
  tree : next.tree = (target, node) :: world.tree

variable {next : World} {node : Node}

theorem Entered.lookup (entered : Entered world next target node) (other : Path) :
    next.tree.lookup other = if other = target then some node else world.tree.lookup other := by
  rw [entered.tree, Tree.lookup_cons]
  simp only [eq_comm]

theorem Good.entered (good : Good root world) (inside : root <+: path)
    (dirs : Tree.DirsAbove world.tree [] (path ++ [base]))
    (absent : world.tree.lookup (path ++ [base]) = none)
    (tree : next.tree = (path ++ [base], node) :: world.tree)
    (touched : next.touched = world.touched ++ [path ++ [base]]) :
    Good root next ∧ Entered world next (path ++ [base]) node := by
  have kept : ∀ chain, world.tree.lookup chain ≠ none →
      next.tree.lookup chain = world.tree.lookup chain := by
    intro chain present
    rw [tree, Tree.lookup_cons, if_neg]
    intro same
    exact present (same ▸ absent)
  refine ⟨⟨?_, ?_, ?_⟩, absent, tree⟩
  · apply good.real.of_lookup
    intro chain _ dir
    rw [kept chain (by simp [dir]), dir]
  · intro above name present
    by_cases same : above ++ [name] = path ++ [base]
    · obtain ⟨here, -⟩ := append_inj' same rfl
      by_cases top : path = []
      · exact .inl (here.trans top)
      right
      have dir : world.tree.lookup path = some .dir := dirs path (prefix_append _ _) top (by simp)
      rw [here, kept path (by simp [dir]), dir]
    · rw [tree, Tree.lookup_cons, if_neg (Ne.symm same)] at present
      rcases good.proper above name present with top | dir
      · exact .inl top
      · right
        rw [kept above (by simp [dir]), dir]
  · intro other mem
    rw [touched] at mem
    rcases mem_append.mp mem with old | new
    · exact good.inside other old
    · rw [mem_singleton.mp new]
      exact inside.trans (prefix_append _ _)

/-- What stands at the target is removed with everything below it. -/
def Cleared (world next : World) (target : Path) : Prop :=
  ∀ path, next.tree.lookup path =
    if target <+: path then none else world.tree.lookup path

theorem Good.cleared (good : Good root world) (inside : root <+: path)
    (cleared : Cleared world next (path ++ [base])) (touched : ∀ other ∈ next.touched,
      other ∈ world.touched ∨ path ++ [base] <+: other) : Good root next := by
  have outside : ∀ other, next.tree.lookup other ≠ none →
      ¬path ++ [base] <+: other ∧ world.tree.lookup other ≠ none := by
    intro other present
    rw [cleared] at present
    split at present
    · exact absurd rfl present
    · exact ⟨by assumption, present⟩
  constructor
  · apply good.real.of_lookup
    intro chain above dir
    rw [cleared, if_neg (not_below_root inside above), dir]
  · intro above name present
    obtain ⟨notBelow, before⟩ := outside _ present
    rcases good.proper above name before with top | dir
    · exact .inl top
    right
    rw [cleared, if_neg, dir]
    exact fun below => notBelow (below.trans (prefix_append _ _))
  · intro other mem
    rcases touched other mem with old | below
    · exact good.inside other old
    · exact (inside_append inside base).trans below

theorem ClearDir.lstraight (clear : ClearDir root world.tree path) (plain : PlainName base)
    (linkSteps : Nat) : Tree.Straight world.tree [] (path ++ [base])
      (world.resolve linkSteps false (path ++ [base])) :=
  clear.straight plain (by simp)

section Ends

variable (good : Good root world) (inside : root <+: path)
  (clear : ClearDir root world.tree path) (plain : PlainName base)
include good inside clear plain

theorem createAt_ends (mode : Mode) (node : Node) :
    Ends (Inside root) (fun next => Good root next ∧ Entered world next (path ++ [base]) node)
      (world.createAt linkSteps (path ++ [base]) mode node) := by
  have straight := clear.lstraight plain linkSteps
  rw [createAt]
  generalize world.resolve linkSteps false (path ++ [base]) = resolved at straight ⊢
  cases straight with
  | failed error | found dirs present => exact .of_error good.inside
  | vacant dirs absent =>
    exact .of_ok (good.entered inside dirs absent (tree_enter _ _) (touched_enter _ _))

theorem link_ends (source : Path) : Ends (Inside root) (fun next => Good root next ∧
        ∃ node, Entered world next (path ++ [base]) node)
      (world.link linkSteps source (path ++ [base])) := by
  have straight := clear.lstraight plain linkSteps
  rw [link]
  generalize world.resolve linkSteps false (path ++ [base]) = resolved at straight ⊢
  split
  · cases straight with
    | vacant dirs absent =>
      split
      · exact .of_ok ((good.entered inside dirs absent (tree_enter _ _)
          (touched_enter _ _)).imp_right fun entered => ⟨_, entered⟩)
      · rename_i text _
        refine .of_ok ((good.entered inside dirs absent ?_ ?_).imp_right
          fun entered => ⟨.link text, entered⟩)
        · exact tree_enter _ _
        · exact touched_enter _ _
      · exact .of_error good.inside
  · exact .of_error good.inside

theorem writeFile_ends (free : world.tree.lookup (path ++ [base]) = none) (mode : Mode) (data :
    String) : Ends (Inside root) (fun next => Good root next ∧
        Entered world next (path ++ [base]) (.file world.nextInode))
      (world.writeFile linkSteps (path ++ [base]) mode data) := by
  have straight : Tree.Straight world.tree [] (path ++ [base])
      (world.resolve linkSteps true (path ++ [base])) :=
    clear.straight plain fun _ text => by
      rw [free]
      simp
  rw [writeFile]
  generalize world.resolve linkSteps true (path ++ [base]) = resolved at straight ⊢
  cases straight with
  | failed error => exact .of_error good.inside
  | found dirs present =>
    obtain ⟨node, found⟩ := present (by simp)
    rw [nil_append, free] at found
    cases found
  | vacant dirs absent =>
    exact .of_ok (good.entered inside dirs absent (tree_enter _ _) (touched_enter _ _))

theorem remove_ends (notDir : world.tree.lookup (path ++ [base]) ≠ some .dir) :
    Ends (Inside root) (fun next => Good root next ∧ Cleared world next (path ++ [base]))
      (world.remove linkSteps (path ++ [base])) := by
  have straight := clear.lstraight plain linkSteps
  rw [remove]
  generalize world.resolve linkSteps false (path ++ [base]) = resolved at straight ⊢
  cases straight with
  | failed error | vacant dirs absent => exact .of_error good.inside
  | found dirs present =>
    rw [nil_append]
    have cleared : Cleared world (({ world with tree := world.tree.remove (path ++ [base]) }.stamp
          (path ++ [base]).dropLast).touch (path ++ [base])) (path ++ [base]) := by
      intro other
      simp only [touch, stamp, tree_setAttr]
      split
      · rename_i below
        by_cases same : other = path ++ [base]
        · rw [same, Tree.lookup_remove_self]
        rw [Tree.lookup_remove same]
        by_contra present
        exact notDir (good.proper.dirs_above present _ below (by simp) (Ne.symm same))
      · rename_i notBelow
        apply Tree.lookup_remove
        intro same
        exact notBelow (same ▸ prefix_refl _)
    refine .of_ok ⟨good.cleared inside cleared ?_, cleared⟩
    intro other mem
    simp only [touch, stamp, touched_setAttr, mem_append, mem_singleton] at mem
    rcases mem with old | rfl
    · exact .inl old
    · exact .inr (prefix_refl _)

theorem removeAll_ends (here : world.tree.lookup (path ++ [base]) ≠ none) :
    Ends (Inside root) (fun next => Good root next ∧ Cleared world next (path ++ [base]))
      (world.removeAll linkSteps (path ++ [base])) := by
  have straight := clear.lstraight plain linkSteps
  rw [World.removeAll]
  generalize world.resolve linkSteps false (path ++ [base]) = resolved at straight ⊢
  cases straight with
  | failed error => exact .of_error good.inside
  | vacant dirs absent => exact absurd absent here
  | found dirs present =>
    rw [nil_append]
    have cleared : Cleared world ({ world with
          tree := world.tree.removeAll (path ++ [base])
          touched := world.touched ++ (world.tree.map Prod.fst).filter
            (path ++ [base] <+: ·) }.stamp (path ++ [base]).dropLast)
        (path ++ [base]) := by
      intro other
      simp only [stamp, tree_setAttr]
      split
      · rename_i below
        exact Tree.lookup_removeAll_below below
      · rename_i notBelow
        exact Tree.lookup_removeAll notBelow
    refine .of_ok ⟨good.cleared inside cleared ?_, cleared⟩
    intro other mem
    simp only [stamp, touched_setAttr, mem_append, mem_filter, decide_eq_true_eq] at mem
    rcases mem with old | new
    · exact .inl old
    · exact .inr new.2

end Ends

theorem lstat_lookup (good : Good root world)
    (clear : ClearDir root world.tree path) (plain : PlainName base)
    (shown : world.lstat linkSteps (path ++ [base]) = some existing) :
    existing = world.tree.lookup (path ++ [base]) := by
  have names : ∀ name ∈ path ++ [base], PlainName name := by
    exact forall_mem_append.mpr ⟨clear.plain, forall_mem_singleton.mpr plain⟩
  cases present : world.tree.lookup (path ++ [base]) with
  | some node =>
    have dirs := good.proper.dirs_above (ne_of_eq_of_ne present (some_ne_none _))
    have reached : world.resolve linkSteps false (path ++ [base]) = .found (path ++ [base]) :=
      Tree.resolve_present (by simp) names dirs present (by simp) (by omega)
    rw [lstat, reached] at shown
    cases shown
    exact present
  | none =>
    have straight := clear.lstraight plain linkSteps
    rw [lstat] at shown
    generalize world.resolve linkSteps false (path ++ [base]) = resolved at straight shown
    cases straight with
    | failed error =>
      cases error <;> cases shown
      rfl
    | vacant dirs absent =>
      cases shown
      rfl
    | found dirs there =>
      cases shown
      exact present

def KeepsDirs (world next : World) : Prop :=
  ∀ path, world.tree.lookup path = some .dir → next.tree.lookup path = some .dir

theorem KeepsDirs.of_tree (same : next.tree = world.tree) : KeepsDirs world next := by
  intro path dir
  rw [same, dir]

theorem KeepsDirs.trans (first : KeepsDirs world middle)
    (second : KeepsDirs middle next) : KeepsDirs world next :=
  fun path dir => second path (first path dir)

theorem Entered.keepsDirs (entered : Entered world next target node) : KeepsDirs world next := by
  intro path dir
  rw [entered.lookup, if_neg, dir]
  intro same
  have absent := entered.absent
  rw [← same, dir] at absent
  cases absent

theorem RealDir.kept (real : RealDir root world.tree dir) (keeps : KeepsDirs world next) :
    RealDir root next.tree dir :=
  real.of_lookup fun chain _ => keeps chain

theorem RealDir.cleared (real : RealDir root world.tree dir) (cleared : Cleared world next target)
    (apart : ¬target <+: dir) : RealDir root next.tree dir := by
  apply real.of_lookup
  intro chain chained here
  rw [cleared, if_neg, here]
  exact fun below => apart (below.trans chained)

def Grown (world next : World) (path : Path) : Prop :=
  ∀ other, next.tree.lookup other = world.tree.lookup other ∨
    other <+: path ∧ world.tree.lookup other = none ∧
      next.tree.lookup other = some .dir

theorem Grown.keepsDirs (grown : Grown world next path) : KeepsDirs world next := by
  intro other dir
  rcases grown other with same | ⟨-, absent, -⟩
  · rw [same, dir]
  · rw [dir] at absent
    cases absent

theorem mkdirAllFrom_ends (mode : Mode) {done rest : List String}
    (good : Good root world) (clear : ClearDir root world.tree (done ++ rest))
    (dirs : ∀ chain, chain <+: done → chain ≠ [] → world.tree.lookup chain = some .dir) :
    Ends (Inside root) (fun next => Good root next ∧ RealDir root next.tree (done ++ rest) ∧
        Grown world next (done ++ rest)) (mkdirAllFrom linkSteps mode world done rest) := by
  induction rest generalizing world done with
  | nil =>
    rw [mkdirAllFrom, append_nil]
    rw [append_nil] at clear
    exact .of_ok ⟨good, ⟨clear.inside, clear.plain, dirs⟩, fun other => .inl rfl⟩
  | cons name rest ih =>
    have whole : done ++ name :: rest = done ++ [name] ++ rest := by simp
    rw [whole] at clear ⊢
    have above : ∀ chain, chain <+: done ++ [name] → chain <+: done ++ [name] ++ rest :=
      fun chain chained => chained.trans (prefix_append _ _)
    have straight : Tree.Straight world.tree [] (done ++ [name])
        (world.resolve linkSteps true (done ++ [name])) := by
      apply Tree.resolve_straight
      · intro other mem
        exact clear.plain other (mem_append_left _ mem)
      · intro chain chained some_ _ text
        exact clear.noLinks chain (above chain chained) some_ text
    rw [mkdirAllFrom]
    generalize world.resolve linkSteps true (done ++ [name]) = resolved at straight ⊢
    cases straight with
    | failed error => exact .of_error good.inside
    | found _ present =>
      cases isDir : world.tree.isDir ([] ++ (done ++ [name])) with
      | false =>
        simp only [isDir]
        exact .of_error good.inside
      | true =>
        simp only [isDir]
        apply ih good clear
        intro chain chained some_
        rcases prefix_concat_iff.mp chained with same | inside
        · rw [same]
          exact Tree.lookup_of_isDir isDir
        · exact dirs chain inside some_
    | vacant _ absent =>
      have inside : root <+: done :=
        inside_of_absent good.real clear.inside (above _ (prefix_refl _)) absent
      have shorter : ClearDir root world.tree done :=
        clear.shorter inside (above _ (prefix_append _ _))
      have plain : PlainName name := clear.plain name (by simp)
      apply Ends.bind (createAt_ends good inside shorter plain mode .dir)
      intro made step
      obtain ⟨madeGood, entered⟩ := step
      have madeClear : ClearDir root made.tree (done ++ [name] ++ rest) := by
        refine ⟨clear.inside, clear.plain, ?_⟩
        intro chain chained some_ text
        rw [entered.lookup]
        split
        · simp
        · exact clear.noLinks chain chained some_ text
      apply (ih madeGood madeClear ?_).mono
      · intro next rested
        obtain ⟨nextGood, real, grown⟩ := rested
        refine ⟨nextGood, real, ?_⟩
        intro other
        rcases grown other with same | ⟨below, free, dir⟩
        · rw [same, entered.lookup]
          split
          · rename_i here
            rw [here]
            exact .inr ⟨above _ (prefix_refl _), entered.absent, rfl⟩
          · exact .inl rfl
        · rw [entered.lookup] at free
          split at free
          · cases free
          · exact .inr ⟨below, free, dir⟩
      · intro chain chained some_
        rw [entered.lookup]
        split
        · rfl
        rename_i apart
        exact dirs chain (proper_chain chained apart) some_

theorem mkdirAll_ends (good : Good root world) (clear : ClearDir root world.tree path) :
    Ends (Inside root) (fun next => Good root next ∧
        RealDir root next.tree path ∧ Grown world next path) (world.mkdirAll linkSteps path) := by
  apply @mkdirAllFrom_ends root linkSteps world _ [] path good clear
  intro chain chained some_
  exact absurd (prefix_nil.mp chained) some_

theorem Grown.lookup_name (grown : Grown world next path) (base : String) :
    next.tree.lookup (path ++ [base]) = world.tree.lookup (path ++ [base]) := by
  rcases grown (path ++ [base]) with same | ⟨below, -⟩
  · exact same
  · exact absurd below (not_below_root (prefix_refl _) (prefix_refl _))

end Cornus.Tarcopy
