import Cornus.Lib.Attempt
import Cornus.Tarcopy.Unpack
import Mathlib.Data.List.Dedup

/-!
# Packing of an archive

`Pack` writes the tree at a container path in the order of a walk: a directory
comes before what it holds, and the names of a directory in order.  Each
descent asks `fs.RootPath` for the directory again.

The archive is the list of its entries: the codec is taken to give back what is
written, with modification times as fine as it keeps them.
-/

namespace Cornus.Tarcopy

open Lib

inductive PackError where
  | resolve
  | read
deriving DecidableEq

def childNames (tree : Tree) (dir : Path) : List String :=
  sortStrings (tree.filterMap fun entry =>
    if entry.1.dropLast = dir then entry.1.getLast? else none).dedup

def writeHeader (name : String) (kind : EntryKind) (attr : Attr) : Entry :=
  let name :=
    if kind.isDir && name.toList.getLast? ≠ some '/' then name ++ "/" else name
  { name, kind, attr }

def packObject (name : String) : Shown → Entry
  | .dir attr => writeHeader name .dir attr
  | .file content attr => writeHeader name (.reg content false) attr
  | .link text attr => writeHeader name (.symlink text) attr

variable (linkSteps : Nat) (rootPath : RootPath) (world : World)

def readDir (dir : Path) : Except PackError (List String) :=
  match world.resolve linkSteps true dir with
  | .found found =>
    if found = [] || world.tree.isDir found then
      .ok (childNames world.tree found)
    else .error .read
  | _ => .error .read

/-- One round of the loop of `packDir`, with the way it descends. -/
def packChild (descend : Path → String → Except PackError (List Entry))
    (cpath hostDir : Path) (arcname name : String) : Except PackError (List Entry) :=
  let childArc := joinPath arcname name
  match world.shownAt (hostDir ++ [name]) with
  | none => .ok []
  | some shown =>
    if shown.isDir then do
      let below ← descend (cpath ++ [name]) childArc
      return packObject childArc shown :: below
    else .ok [packObject childArc shown]

/-- `packDir`, with a bound on the depth. -/
def packDir : Nat → Path → String → Except PackError (List Entry)
  | 0, _, _ => .error .read
  | fuel + 1, cpath, arcname =>
    match rootPath world.tree cpath with
    | none => .error .resolve
    | some hostDir => do
      let names ← readDir linkSteps world hostDir
      gatherAll (packChild world (packDir fuel) cpath hostDir arcname) names

def treeDepth (tree : Tree) : Nat :=
  (tree.map fun entry => entry.1.length).foldr max 0 + 1

def baseName (cpath : Path) : String :=
  cpath.getLast?.getD "/"

def pack (path : String) : Except PackError (List Entry) :=
  let cpath := cleanPath true path
  let name := baseName cpath
  match resolveParent rootPath world.tree cpath with
  | none => .error .resolve
  | some host =>
    match world.look linkSteps host with
    | none => .error .read
    | some shown =>
      if shown.isDir then do
        let below ← packDir linkSteps rootPath world (treeDepth world.tree) cpath name
        return packObject name shown :: below
      else .ok [packObject name shown]

end Cornus.Tarcopy
