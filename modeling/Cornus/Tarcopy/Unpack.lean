import Cornus.Lib.Run
import Cornus.Tarcopy.FileSystem

/-!
# Extraction of an archive

`Unpack` puts the entries of an archive one after the other under a directory of
the container, each at the path that `fs.RootPath` gives for its parent at that
moment, and then restores the times of the directories it met by the paths it
remembered.

A path of the container is the list of its names.  `fs.RootPath` is a parameter:
it takes the tree and a path of the container to a path of the host.
-/

namespace Cornus.Tarcopy

open Lib

structure UnpackOptions where
  noOverwriteDirNonDir : Bool := false
  copyUidGid : Bool := false

/-- The kind of an entry, with its content; the content of a regular file may
break off with an error. -/
inductive EntryKind where
  | dir
  | reg (content : String) (broken : Bool)
  | symlink (target : LinkText)
  | link (target : String)
  | other

structure Entry where
  name : String
  kind : EntryKind
  attr : Attr

def EntryKind.isDir : EntryKind → Bool
  | .dir => true
  | _ => false

/-- `cleanEntryName`; no names stand for the directory itself. -/
def cleanEntryName (name : String) : Option (List String) :=
  if name.toList.head? = some '/' then none
  else
    let cleaned := cleanPath false name
    if cleaned.head? = some ".." then none else some cleaned

abbrev RootPath := Tree → Path → Option Path

/-- The world, and the directories whose times are to be restored. -/
structure Progress where
  world : World
  dirs : List (Path × Int) := []

section Unpack

variable (linkSteps : Nat) (rootPath : RootPath) (tree : Tree) (path : Path)

def resolveParent : Option Path :=
  match path.getLast? with
  | none => rootPath tree []
  | some base => (rootPath tree path.dropLast).map (· ++ [base])

def existingIsDir : Option Node → Bool
  | some .dir => true
  | _ => false

def clearTarget (world : World) (target : Path) (existing : Option Node)
    (entryIsDir : Bool) : Except World World :=
  match existing with
  | none => .ok world
  | some .dir =>
    if entryIsDir then .ok world else world.removeAll linkSteps target
  | some _ => world.remove linkSteps target

def makeDir (world : World) (target : Path) (keepsDir : Bool) (mode : Mode) : Except World World :=
  if keepsDir then .ok world else world.mkdir linkSteps target mode

variable (cdest : Path)

/-- The old name of a hard link is looked for under the destination. -/
def linkEntry (world : World) (target : Path) (old : String) : Except World World :=
  match cleanEntryName old with
  | none => .error world
  | some cleaned =>
    match resolveParent rootPath world.tree (cdest ++ cleaned) with
    | none => .error world
    | some source => world.link linkSteps source target

def placeEntry (world : World) (target : Path)
    (keepsDir : Bool) (entry : Entry) : Except World World :=
  match entry.kind with
  | .dir => do
    let made ← makeDir linkSteps world target keepsDir entry.attr.mode
    made.chmod linkSteps target entry.attr.mode
  | .reg content broken => do
    let written ← world.writeFile linkSteps target entry.attr.mode content
    if broken then .error written
    else
      let changed ← written.chmod linkSteps target entry.attr.mode
      changed.chtimes linkSteps target entry.attr.mtime
  | .symlink text => world.symlink linkSteps target text
  | .link old => linkEntry linkSteps rootPath cdest world target old
  | .other => .ok world

variable (opts : UnpackOptions)

def ownEntry (world : World) (target : Path) (entry : Entry) : Except World World :=
  match entry.kind with
  | .other => .ok world
  | _ =>
    if opts.copyUidGid then
      world.lchown linkSteps target entry.attr.uid entry.attr.gid
    else .ok world

variable (progress : Progress)

def extractAt (hostDir : Path) (base : String) (entry : Entry) : Except World Progress :=
  let world := progress.world
  let target := hostDir ++ [base]
  match world.lstat linkSteps target with
  | none => .error world
  | some existing =>
    let isDir := existingIsDir existing
    if existing.isSome && opts.noOverwriteDirNonDir && isDir != entry.kind.isDir then
      .error world
    else do
      let cleared ← clearTarget linkSteps world target existing entry.kind.isDir
      let ready ← cleared.mkdirAll linkSteps hostDir
      let placed ← placeEntry linkSteps rootPath cdest ready target isDir entry
      let owned ← ownEntry linkSteps opts placed target entry
      let dirs :=
        if entry.kind.isDir then progress.dirs ++ [(target, entry.attr.mtime)]
        else progress.dirs
      return { world := owned, dirs }

/-- The directory and the name for a path of the container. -/
def entryPlace : Option (Path × String) :=
  match path.getLast?, rootPath tree path.dropLast with
  | some base, some hostDir => some (hostDir, base)
  | _, _ => none

theorem entryPlace_some {rootPath : RootPath} {tree : Tree} {path : Path}
    (placed : entryPlace rootPath tree path = some (hostDir, base)) :
    base ∈ path ∧ rootPath tree path.dropLast = some hostDir := by
  rw [entryPlace] at placed
  split at placed
  · rename_i name dir last given
    cases placed
    exact ⟨List.mem_of_getLast? last, given⟩
  · cases placed

def unpackEntry (entry : Entry) : Except World Progress :=
  match cleanEntryName entry.name with
  | none => .error progress.world
  | some cleaned =>
    if cleaned = [] then .ok progress
    else
      match entryPlace rootPath progress.world.tree (cdest ++ cleaned) with
      | none => .error progress.world
      | some (hostDir, base) =>
        extractAt linkSteps rootPath cdest opts progress hostDir base entry

def unpackStep (entry : Entry) : Option Progress :=
  (unpackEntry linkSteps rootPath cdest opts progress entry).toOption

/-- The loop of `Unpack`; the archive ends well, or with an error. -/
def unpackEntries (cdest : Path) (opts : UnpackOptions) (ends : Bool) :
    Progress → List Entry → Except World Progress
  | progress, [] => if ends then .ok progress else .error progress.world
  | progress, entry :: entries => do
    let next ← unpackEntry linkSteps rootPath cdest opts progress entry
    unpackEntries cdest opts ends next entries

def restoreTimes : World → List (Path × Int) → Except World World
  | world, [] => .ok world
  | world, (dir, mtime) :: dirs => do
    let next ← world.chtimes linkSteps dir mtime
    restoreTimes next dirs

def unpack (world : World) (dest : String) (opts : UnpackOptions)
    (entries : List Entry) (ends : Bool) : Except World World :=
  let cdest := cleanPath true dest
  match rootPath world.tree cdest with
  | none => .error world
  | some destHost =>
    match world.resolve linkSteps true destHost with
    | .found found =>
      if found = [] || world.tree.isDir found then do
        let progress ← unpackEntries linkSteps rootPath cdest opts ends { world } entries
        restoreTimes linkSteps progress.world progress.dirs
      else .error world
    | _ => .error world

end Unpack

/-- The world at the end of a run that succeeds or fails. -/
def finalWorld : Except World World → World
  | .ok world => world
  | .error world => world

end Cornus.Tarcopy
