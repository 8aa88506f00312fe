import Cornus.Lib.FileTree
import Cornus.Lib.Paths

/-!
# The file system under an extraction

The whole directory tree of the host with the attributes of its objects, and the
calls that the extraction makes.  A call resolves its path in the tree of that
moment: opening a file and changing a mode or times follow a link in the last
place, the others do not.  `touched` records where objects were created,
written, removed or changed.

A call that fails leaves the world as it is.  The process is root, and the
permission bits that its mask takes away are not modelled.
-/

namespace Cornus.Tarcopy

open Lib Function

/-- The permission bits of a file. -/
structure Mode where
  perm : Fin 512
  (setuid setgid sticky : Bool := false)
  deriving DecidableEq

def linkMode : Mode :=
  { perm := 0o777 }

def mode755 : Mode :=
  { perm := 0o755 }

/-- The attributes that an archive carries. -/
structure Attr where
  mode : Mode
  (uid gid : Nat)
  mtime : Int
  deriving DecidableEq

/-- The group may execute the file. -/
def Mode.groupExecutable (mode : Mode) : Bool :=
  mode.perm.val &&& 0o010 ≠ 0

/-- What a change of the owner by root leaves of the mode of a regular file: Linux
clears setuid, and setgid where the group may execute the file. -/
def Mode.afterChown (mode : Mode) : Mode :=
  { mode with setuid := false, setgid := mode.setgid && !mode.groupExecutable }

/-- The tree, the contents and attributes of files by inode, and the attributes
of directories and links by path. -/
structure World where
  tree : Tree
  content : Nat → String
  fileAttr : Nat → Attr
  attr : Path → Attr
  nextInode : Nat
  now : Int
  touched : List Path := []

/-- What an entry looks like to a reader. -/
inductive Shown where
  | dir (attr : Attr)
  | file (content : String) (attr : Attr)
  | link (text : LinkText) (attr : Attr)

def Shown.isDir : Shown → Bool
  | .dir _ => true
  | _ => false

def ownedMode : Option Node → Mode → Mode
  | some (.file _), mode => mode.afterChown
  | _, mode => mode

namespace World

def attrAt (world : World) (path : Path) : Attr :=
  match world.tree.lookup path with
  | some (.file inode) => world.fileAttr inode
  | _ => world.attr path

/-- What a path shows. -/
def shownAt (world : World) (path : Path) : Option Shown :=
  match world.tree.lookup path with
  | none => none
  | some .dir => some (.dir (world.attr path))
  | some (.file inode) =>
    some (.file (world.content inode) (world.fileAttr inode))
  | some (.link text) => some (.link text (world.attr path))

section Calls

variable (linkSteps : Nat) (world : World)

/-- The resolution of a path; links may add `linkSteps` steps to it. -/
def resolve (follow : Bool) (path : Path) : Resolved :=
  world.tree.resolve follow (path.length + 1 + linkSteps) [] path

variable (path : Path)

def touch : World :=
  { world with touched := world.touched ++ [path] }

/-- Change the attributes of the object at a resolved path. -/
def setAttr (change : Attr → Attr) : World :=
  match world.tree.lookup path with
  | some (.file inode) =>
    { world with
      fileAttr := update world.fileAttr inode (change (world.fileAttr inode)) }
  | _ =>
    { world with attr := update world.attr path (change (world.attr path)) }

def stamp (dir : Path) : World :=
  world.setAttr dir fun attr => { attr with mtime := world.now }

def enter (node : Node) : World :=
  ({ world with tree := (path, node) :: world.tree }.stamp path.dropLast).touch path

variable (mode : Mode)

def newAttr : Attr :=
  { mode, uid := 0, gid := 0, mtime := world.now }

/-- The node that `Lstat` finds; the outer `none` is an error other than a
missing object. -/
def lstat : Option (Option Node) :=
  match world.resolve linkSteps false path with
  | .found found => some (world.tree.lookup found)
  | .vacant _ => some none
  | .failed .enoent => some none
  | .failed _ => none

/-- The object that `Lstat` and, for a file, a read show. -/
def look : Option Shown :=
  match world.resolve linkSteps false path with
  | .found found => world.shownAt found
  | _ => none

def createAt (node : Node) : Except World World :=
  match world.resolve linkSteps false path with
  | .vacant free =>
    .ok ({ world with attr := update world.attr free (world.newAttr mode) }.enter free node)
  | _ => .error world

def mkdir : Except World World :=
  world.createAt linkSteps path mode .dir

def symlink (text : LinkText) : Except World World :=
  world.createAt linkSteps path linkMode (.link text)

def mkdirAllFrom (mode : Mode) : World → Path → List String → Except World World
  | world, _, [] => .ok world
  | world, done, name :: rest =>
    let here := done ++ [name]
    match world.resolve linkSteps true here with
    | .found found =>
      if world.tree.isDir found then mkdirAllFrom mode world here rest
      else .error world
    | .vacant _ => do
      let made ← world.mkdir linkSteps here mode
      mkdirAllFrom mode made here rest
    | .failed _ => .error world

def mkdirAll : Except World World :=
  mkdirAllFrom linkSteps mode755 world [] path

def remove (path : Path) : Except World World :=
  match world.resolve linkSteps false path with
  | .found found =>
    .ok (({ world with tree := world.tree.remove found }.stamp found.dropLast).touch found)
  | _ => .error world

def removeAll (path : Path) : Except World World :=
  match world.resolve linkSteps false path with
  | .found found =>
    .ok ({ world with
      tree := world.tree.removeAll found
      touched := world.touched ++ (world.tree.map Prod.fst).filter (found <+: ·) }.stamp
          found.dropLast)
  | .vacant _ => .ok world
  | .failed _ => .error world

def changeAttr (follow : Bool) (path : Path)
    (change : Option Node → Attr → Attr) : Except World World :=
  match world.resolve linkSteps follow path with
  | .found found =>
    .ok ((world.setAttr found (change (world.tree.lookup found))).touch found)
  | _ => .error world

def chmod : Except World World :=
  world.changeAttr linkSteps true path fun _ attr => { attr with mode }

def chtimes (mtime : Int) : Except World World :=
  world.changeAttr linkSteps true path fun _ attr => { attr with mtime }

def lchown (uid gid : Nat) : Except World World :=
  world.changeAttr linkSteps false path fun node attr =>
    { attr with uid, gid, mode := ownedMode node attr.mode }

/-- `OpenFile` with `O_CREATE|O_TRUNC`, and what is then written. -/
def writeFile (data : String) : Except World World :=
  match world.resolve linkSteps true path with
  | .found found =>
    match world.tree.lookup found with
    | some (.file inode) =>
      .ok (({ world with content := update world.content inode data }.stamp found).touch found)
    | _ => .error world
  | .vacant free =>
    .ok ({ world with
      content := update world.content world.nextInode data
      fileAttr := update world.fileAttr world.nextInode (world.newAttr mode)
      nextInode := world.nextInode + 1 }.enter free (.file world.nextInode))
  | .failed _ => .error world

/-- `Link`, which does not follow a link in the last place of the old name. -/
def link (old new : Path) : Except World World :=
  match world.resolve linkSteps false old, world.resolve linkSteps false new with
  | .found found, .vacant free =>
    match world.tree.lookup found with
    | some (.file inode) => .ok (world.enter free (.file inode))
    | some (.link text) =>
      .ok ({ world with attr := update world.attr free (world.attr found) }.enter free (.link text))
    | _ => .error world
  | _, _ => .error world

end Calls

end World

end Cornus.Tarcopy
