import Cornus.Tarcopy.Confinement

/-!
# Extraction inside the root

One entry changes only what lies inside the root, and keeps every remembered
directory unless it replaces one.  Over a whole archive the times of the
directories are then restored inside the root as well.
-/

namespace Cornus.Tarcopy

open Lib List Option

/-- What holds between the entries: the remembered directories are still the
directories that were met. -/
structure Steady (root : Path) (progress : Progress) : Prop where
  good : Good root progress.world
  remembered : ∀ dir ∈ progress.dirs, RealDir root progress.world.tree dir.1

/-- The entry does not replace a directory that is remembered or has a
remembered directory below it. -/
def SparesDirs (rootPath : RootPath) (cdest : Path) (opts : UnpackOptions)
    (progress : Progress) (entry : Entry) : Prop :=
  opts.noOverwriteDirNonDir = true ∨ entry.kind.isDir = true ∨
    ∀ cleaned ∈ cleanEntryName entry.name,
      ∀ place ∈ entryPlace rootPath progress.world.tree (cdest ++ cleaned),
        progress.world.tree.isDir (place.1 ++ [place.2]) = true →
          ∀ dir ∈ progress.dirs, ¬place.1 ++ [place.2] <+: dir.1

instance (rootPath : RootPath) (cdest : Path) (opts : UnpackOptions)
    (progress : Progress) (entry : Entry) :
    Decidable (SparesDirs rootPath cdest opts progress entry) :=
  inferInstanceAs (Decidable (_ ∨ _ ∨ _))

section Entry

variable {root : Path} {world : World}

/-- The way is free for an entry: its directory has no links, and its name is
free unless a directory is kept there. -/
structure Readied (root : Path) (dirs : List (Path × Int)) (path : Path)
    (base : String) (keepsDir : Bool) (world : World) : Prop where
  good : Good root world
  clear : ClearDir root world.tree path
  remembered : ∀ dir ∈ dirs, RealDir root world.tree dir.1
  place : world.tree.lookup (path ++ [base]) = if keepsDir then some .dir else none

section

variable {path : Path} {dirs : List (Path × Int)} (clear : ClearDir root world.tree path)
  (remembered : ∀ dir ∈ dirs, RealDir root world.tree dir.1)
include clear remembered

theorem Readied.of_cleared {next : World} (apart : ∀ dir ∈ dirs, ¬path ++ [base] <+: dir.1)
    (good : Good root next) (cleared : Cleared world next (path ++ [base])) :
    Readied root dirs path base false next := by
  refine ⟨good, ?_, ?_, ?_⟩
  · apply clear.of_lookup
    intro chain chained
    rw [cleared, if_neg (not_below_root (prefix_refl path) chained)]
  · intro dir mem
    exact (remembered dir mem).cleared cleared (apart dir mem)
  · rw [cleared, if_pos (prefix_refl _)]
    rfl

theorem clearTarget_ends (good : Good root world) (plain : PlainName base) (entryIsDir : Bool)
    (spared : entryIsDir = true ∨
      (world.tree.lookup (path ++ [base]) = some .dir → ∀ dir ∈ dirs, ¬path ++ [base] <+: dir.1)) :
    Ends (Inside root) (Readied root dirs path base
        (world.tree.isDir (path ++ [base]) && entryIsDir))
      (clearTarget linkSteps world (path ++ [base])
        (world.tree.lookup (path ++ [base])) entryIsDir) := by
  rw [Tree.isDir]
  cases present : world.tree.lookup (path ++ [base]) with
  | none => exact .of_ok ⟨good, clear, remembered, present⟩
  | some node =>
    have removed : node ≠ .dir → Ends (Inside root) (Readied root dirs path base false)
          (world.remove linkSteps (path ++ [base])) := by
      intro notDir
      have apart : ∀ dir ∈ dirs, ¬path ++ [base] <+: dir.1 := by
        intro dir mem below
        have through := (remembered dir mem).dirs _ below (by simp)
        rw [present] at through
        exact notDir (some.inj through)
      apply (remove_ends good clear.inside clear plain _).mono
      · intro next step
        exact .of_cleared clear remembered apart step.1 step.2
      · rw [present]
        exact fun same => notDir (some.inj same)
    cases node with
    | file inode | link text => exact removed (by simp)
    | dir =>
      cases entryIsDir with
      | true => exact .of_ok ⟨good, clear, remembered, present⟩
      | false =>
        have apart := spared.resolve_left Bool.false_ne_true present
        apply (removeAll_ends good clear.inside clear plain _).mono
        · intro next step
          exact .of_cleared clear remembered apart step.1 step.2
        · rw [present]
          exact some_ne_none _

end

/-- An entry stands in its place: the directories that were there are kept, and
a directory entry is a directory. -/
structure Placed (root : Path) (world : World) (target : Path) (entry : Entry)
    (next : World) : Prop where
  good : Good root next
  keeps : KeepsDirs world next
  dir : entry.kind.isDir = true → next.tree.lookup target = some .dir

section

variable (good : Good root world) (real : RealDir root world.tree dir) (plain : PlainName base)
include good real plain

theorem changeAttr_at (present : world.tree.lookup (dir ++ [base]) = some node)
    (notLink : ∀ text, node ≠ .link text) (follow : Bool) (change : Option Node → Attr → Attr) :
    Ends (Inside root) (fun next => Good root next ∧ next.tree = world.tree)
      (world.changeAttr linkSteps follow (dir ++ [base]) change) := by
  apply changeAttr_ends good (inside_append real.inside base)
  apply real.clear.straight plain
  intro _ text
  rw [present]
  exact fun same => notLink text (some.inj same)

theorem makeDir_ends (keepsDir : Bool) (mode : Mode)
    (place : world.tree.lookup (dir ++ [base]) = if keepsDir then some .dir else none) :
    Ends (Inside root) (fun next => Good root next ∧ KeepsDirs world next ∧
        next.tree.lookup (dir ++ [base]) = some .dir)
      (makeDir linkSteps world (dir ++ [base]) keepsDir mode) := by
  cases keepsDir with
  | true => exact .of_ok ⟨good, .of_tree rfl, place⟩
  | false =>
    apply (createAt_ends good real.inside real.clear plain _ _).mono
    intro next step
    refine ⟨step.1, step.2.keepsDirs, ?_⟩
    rw [step.2.lookup, if_pos rfl]

theorem linkEntry_ends
    (old : String) : Ends (Inside root) (fun next => Good root next ∧ KeepsDirs world next)
      (linkEntry linkSteps rootPath cdest world (dir ++ [base]) old) := by
  rw [linkEntry]
  split
  · exact .of_error good.inside
  split
  · exact .of_error good.inside
  apply (link_ends good real.inside real.clear plain _).mono
  intro next step
  obtain ⟨nextGood, node, entered⟩ := step
  exact ⟨nextGood, entered.keepsDirs⟩

theorem placeEntry_ends
    (keepsDir : Bool) (entry : Entry) (place : world.tree.lookup (dir ++ [base]) =
      if keepsDir && entry.kind.isDir then some .dir else none) :
    Ends (Inside root) (Placed root world (dir ++ [base]) entry)
      (placeEntry linkSteps rootPath cdest world (dir ++ [base]) keepsDir entry) := by
  rw [placeEntry]
  cases kind : entry.kind with
  | dir =>
    rw [kind] at place
    rw [EntryKind.isDir, Bool.and_true] at place
    apply (makeDir_ends good real plain keepsDir _ place).bind
    intro next step
    obtain ⟨nextGood, keeps, here⟩ := step
    apply (changeAttr_at nextGood (real.kept keeps) plain here (by simp) true _).mono
    intro changed after
    refine ⟨after.1, keeps.trans (.of_tree after.2), ?_⟩
    intro _
    rw [after.2, here]
  | reg content broken =>
    have free : world.tree.lookup (dir ++ [base]) = none := by
      rw [place, kind]
      cases keepsDir <;> rfl
    apply (writeFile_ends good real.inside real.clear plain free _ _).bind
    intro written step
    obtain ⟨writtenGood, entered⟩ := step
    have here : written.tree.lookup (dir ++ [base]) = some (.file world.nextInode) := by
      rw [entered.lookup, if_pos rfl]
    cases broken with
    | true => exact .of_error writtenGood.inside
    | false =>
      have kept := real.kept entered.keepsDirs
      apply (changeAttr_at writtenGood kept plain here (by simp) true _).bind
      intro changed second
      rw [← second.2] at here kept
      apply (changeAttr_at second.1 kept plain here (by simp) true _).mono
      intro timed third
      refine ⟨third.1, ?_, by simp [kind, EntryKind.isDir]⟩
      exact entered.keepsDirs.trans (.of_tree (third.2.trans second.2))
  | symlink text =>
    apply (createAt_ends good real.inside real.clear plain _ _).mono
    intro next step
    exact ⟨step.1, step.2.keepsDirs, by simp [kind, EntryKind.isDir]⟩
  | link old =>
    apply (linkEntry_ends good real plain old).mono
    intro next step
    exact ⟨step.1, step.2, by simp [kind, EntryKind.isDir]⟩
  | other =>
    exact .of_ok ⟨good, .of_tree rfl, by simp [kind, EntryKind.isDir]⟩

theorem ownEntry_ends (opts : UnpackOptions) (entry : Entry) :
    Ends (Inside root) (fun next => Good root next ∧ next.tree = world.tree)
      (ownEntry linkSteps opts world (dir ++ [base]) entry) := by
  have same : Ends (Inside root)
      (fun next => Good root next ∧ next.tree = world.tree) (.ok world) :=
    .of_ok ⟨good, rfl⟩
  rw [ownEntry]
  split
  · exact same
  split
  · apply changeAttr_ends good (inside_append real.inside base)
    exact real.clear.straight plain (by simp)
  · exact same

end

theorem extractAt_ends (steady : Steady root progress)
    (clear : ClearDir root progress.world.tree path) (plain : PlainName base) (entry : Entry)
    (spared : opts.noOverwriteDirNonDir = true ∨ entry.kind.isDir = true ∨
      (progress.world.tree.isDir (path ++ [base]) = true →
        ∀ dir ∈ progress.dirs, ¬path ++ [base] <+: dir.1)) : Ends (Inside root) (Steady root)
      (extractAt linkSteps rootPath cdest opts progress path base entry) := by
  have good := steady.good
  rw [extractAt]
  cases shown : progress.world.lstat linkSteps (path ++ [base]) with
  | none => exact .of_error good.inside
  | some existing =>
    have same := lstat_lookup good clear plain shown
    subst same
    have isDir : existingIsDir (progress.world.tree.lookup (path ++ [base])) =
        progress.world.tree.isDir (path ++ [base]) := rfl
    simp only [isDir]
    split
    · exact .of_error good.inside
    rename_i allowed
    have apart : entry.kind.isDir = true ∨
        (progress.world.tree.lookup (path ++ [base]) = some .dir →
          ∀ dir ∈ progress.dirs, ¬path ++ [base] <+: dir.1) := by
      rcases spared with refuses | isDir | spared
      · cases entryIsDir : entry.kind.isDir with
        | true => exact .inl rfl
        | false =>
          right
          intro present
          apply absurd _ allowed
          rw [Tree.isDir, present, refuses, entryIsDir]
          rfl
      · exact .inl isDir
      · right
        intro present
        apply spared
        rw [Tree.isDir, present]
    apply (clearTarget_ends clear steady.remembered good plain _ apart).bind
    intro cleared readied
    apply (mkdirAll_ends readied.good readied.clear).bind
    intro ready step
    obtain ⟨readyGood, real, grown⟩ := step
    have place := (grown.lookup_name base).trans readied.place
    apply (placeEntry_ends readyGood real plain _ entry place).bind
    intro standing placed
    have standingReal := real.kept placed.keeps
    apply (ownEntry_ends placed.good standingReal plain opts entry).bind
    intro owned step
    apply Ends.of_ok
    refine ⟨step.1, ?_⟩
    intro dir mem
    rw [step.2]
    have old : ∀ dir ∈ progress.dirs, RealDir root standing.tree dir.1 :=
      fun dir earlier => (readied.remembered dir earlier).kept (grown.keepsDirs.trans placed.keeps)
    split at mem
    · rename_i isDir
      rcases mem_append.mp mem with earlier | new
      · exact old dir earlier
      · rw [mem_singleton.mp new]
        exact standingReal.snoc plain (placed.dir isDir)
    · exact old dir mem

end Entry

section Run

variable {root : Path} {linkSteps : Nat} {rootPath : RootPath}

theorem plain_cleanEntryName
    (taken : cleanEntryName name = some cleaned) : ∀ part ∈ cleaned, PlainName part := by
  rw [cleanEntryName] at taken
  split at taken
  · cases taken
  simp only at taken
  split at taken <;> cases taken
  rename_i inside
  exact plain_cleanPath_of_head inside

section

variable {cdest : Path} (confines : Confines root rootPath)
  (destPlain : ∀ name ∈ cdest, PlainName name) (steady : Steady root progress)
include confines destPlain steady

theorem unpackEntry_ends (spares : SparesDirs rootPath cdest opts progress entry) :
    Ends (Inside root) (Steady root)
      (unpackEntry linkSteps rootPath cdest opts progress entry) := by
  rw [unpackEntry]
  cases taken : cleanEntryName entry.name with
  | none => exact .of_error steady.good.inside
  | some cleaned =>
    simp only
    split
    · exact .of_ok steady
    cases placed : entryPlace rootPath progress.world.tree (cdest ++ cleaned) with
    | none => exact .of_error steady.good.inside
    | some place =>
      obtain ⟨hostDir, base⟩ := place
      obtain ⟨mem, given⟩ := entryPlace_some placed
      apply extractAt_ends steady (confines _ _ _ steady.good.real given)
      · rcases mem_append.mp mem with above | below
        · exact destPlain base above
        · exact plain_cleanEntryName taken base below
      · rcases spares with refuses | isDir | spares
        · exact .inl refuses
        · exact .inr (.inl isDir)
        · exact .inr (.inr (spares cleaned taken (hostDir, base) placed))

theorem unpackEntries_ends (ends : Bool) (along : Along (unpackStep linkSteps rootPath cdest opts)
      (SparesDirs rootPath cdest opts) progress entries) : Ends (Inside root) (Steady root)
      (unpackEntries linkSteps rootPath cdest opts ends progress entries) := by
  induction entries generalizing progress with
  | nil =>
    rw [unpackEntries]
    cases ends with
    | true => exact .of_ok steady
    | false => exact .of_error steady.good.inside
  | cons entry entries ih =>
    obtain ⟨spares, later⟩ := along
    have stepped : Ends (Inside root) (Steady root)
        (unpackEntry linkSteps rootPath cdest opts progress entry) :=
      unpackEntry_ends confines destPlain steady spares
    rw [unpackEntries]
    cases outcome : unpackEntry linkSteps rootPath cdest opts progress entry with
    | error world => exact .of_error (stepped.error world outcome)
    | ok next =>
      apply ih (stepped.ok next outcome)
      apply later
      rw [unpackStep, outcome]
      rfl

end

theorem restoreTimes_ends (good : Good root world)
    (remembered : ∀ dir ∈ dirs, RealDir root world.tree dir.1) :
    Ends (Inside root) (Inside root) (restoreTimes linkSteps world dirs) := by
  induction dirs generalizing world with
  | nil => exact .of_ok good.inside
  | cons dir dirs ih =>
    have real := remembered dir mem_cons_self
    apply (changeAttr_ends good real.inside real.straight _).bind
    intro next step
    apply ih step.1
    intro other mem
    rw [step.2]
    exact remembered other (mem_cons_of_mem _ mem)

theorem inside_finalWorld
    (ends : Ends (Inside root) (Inside root) attempt) : Inside root (finalWorld attempt) := by
  cases attempt with
  | error world => exact ends.error world rfl
  | ok world => exact ends.ok world rfl

/-- An archive without an entry that replaces a remembered directory, or one
above it, changes nothing outside the root. -/
theorem unpack_inside (confines : Confines root rootPath) {world : World}
    (good : Good root world) (dest : String) (ends : Bool) {entries : List Entry}
    (along : Along (unpackStep linkSteps rootPath (cleanPath true dest) opts)
      (SparesDirs rootPath (cleanPath true dest) opts) { world } entries) :
    Inside root (finalWorld (unpack linkSteps rootPath world dest opts entries ends)) := by
  have start : Steady root { world } := by
    refine ⟨good, ?_⟩
    intro dir member
    cases member
  apply inside_finalWorld
  rw [unpack]
  split
  · exact .of_error good.inside
  split
  · split
    · apply (unpackEntries_ends confines (plain_cleanPath dest) start ends along).bind
      intro progress steady
      exact restoreTimes_ends steady.good steady.remembered
    · exact .of_error good.inside
  · exact .of_error good.inside

end Run

/-! ## A remembered directory becomes a link -/

/-- An `fs.RootPath` that takes the paths without links. -/
def directRootPath (root : Path) : RootPath := fun tree path =>
  let host := root ++ path
  if (∀ name ∈ host, PlainName name) ∧ ∀ chain ∈ host.inits,
      ∀ node ∈ tree.lookup chain, node.isLink = false then
    some host
  else none

theorem confines_directRootPath (root : Path) : Confines root (directRootPath root) := by
  intro tree path host _ given
  simp only [directRootPath] at given
  split at given <;> cases given
  rename_i allowed
  refine ⟨prefix_append _ _, allowed.1, ?_⟩
  intro chain chained some_ text here
  have notLink := allowed.2 chain ((mem_inits _ _).mpr chained) _ here
  cases notLink

def rootAttr : Attr :=
  { mode := mode755, uid := 0, gid := 0, mtime := 0 }

/-- A host with a root for a container and a directory beside it. -/
def hostWorld : World where
  tree := [(["srv"], .dir), (["etc"], .dir)]
  content _ := ""
  fileAttr _ := rootAttr
  attr _ := rootAttr
  nextInode := 0
  now := 100

theorem good_hostWorld : Good ["srv"] hostWorld where
  real := realDir_of_inits (prefix_refl _) (by decide) (by decide)
  proper := proper_of_entries (by decide)
  inside := by
    intro path mem
    cases mem

/-- A directory with a file, and a link to the outside in the place of the
file. -/
def replacedFile : List Entry :=
  [{ name := "d/", kind := .dir, attr := rootAttr },
    { name := "d/f", kind := .reg "data" false, attr := rootAttr },
    { name := "d/f", kind := .symlink ⟨true, ["etc"]⟩, attr := rootAttr }]

theorem replacedFile_inside :
    Inside ["srv"] (finalWorld (unpack 40 (directRootPath ["srv"]) hostWorld
      "/" {} replacedFile true)) :=
  unpack_inside (confines_directRootPath _) good_hostWorld "/" true (by decide +kernel)

/-- A directory, and a link to the outside in its place. -/
def replacedDir : List Entry :=
  [{ name := "d/", kind := .dir, attr := rootAttr },
    { name := "d", kind := .symlink ⟨true, ["etc"]⟩, attr := rootAttr }]

theorem replacedDir_escapes : Confines ["srv"] (directRootPath ["srv"]) ∧ Good ["srv"] hostWorld ∧
      ¬Inside ["srv"] (finalWorld (unpack 40 (directRootPath ["srv"]) hostWorld
        "/" {} replacedDir true)) := by
  refine ⟨confines_directRootPath _, good_hostWorld, ?_⟩
  intro inside
  have outside : ["etc"] ∈ (finalWorld (unpack 40 (directRootPath ["srv"])
      hostWorld "/" {} replacedDir true)).touched := by
    decide +kernel
  exact absurd (inside _ outside) (by decide)

end Cornus.Tarcopy
