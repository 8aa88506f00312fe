import Cornus.BlockCache.Store
import Cornus.Lib.FileTree
import Cornus.Lib.Run

/-!
# The writable confined export

A peer drives the caller's server through handles, and each handle stands for a
path below the export root.  `Walk`, `Open` and `SetAttr` check where the path
of a handle leads; the operations that create, link, rename and remove entries
check only the new name and leave the path of the handle to the kernel.  The
host is the whole directory tree with its files, so that effects outside the
root can be seen.
-/

namespace Cornus.Confinement

open BlockCache Lib Function Option List Bool Tree

/-! ## The host and the export -/

structure OpenFlags where
  (writable creat excl trunc append : Bool)

def stripAppend (flags : OpenFlags) : OpenFlags :=
  { flags with append := false }

/-- The data and the attributes of a file. -/
structure Inode where
  data : Bytes
  attrs : Nat

/-- A handle: the path from the root, and the file it holds open together with
whether it was opened for writing. -/
structure Fid where
  rel : Path
  fd : Option (Nat × Bool)

/-- The caller's file system and its handles. -/
structure Host where
  tree : Tree
  inodes : Nat → Inode
  nextIno : Nat
  fids : Nat → Option Fid

/-- The export: its resolved root, and the limits within which the kernel and
`EvalSymlinks` resolve a path. -/
structure Export where
  root : Path
  (kernelLimit evalLimit : Nat)

/-- The requests of a session. -/
inductive FsRequest where
  | opAttach (h : Nat)
  | opWalk (src newH : Nat) (names : List String)
  | opWalkGetAttr (src newH : Nat) (names : List String)
  | opOpen (h : Nat) (flags : OpenFlags)
  | opCreate (h newH : Nat) (name : String) (flags : OpenFlags)
  | opMkdir (h : Nat) (name : String)
  | opSymlink (h : Nat) (oldName : LinkText) (newName : String)
  | opLink (h target : Nat) (newName : String)
  | opRenameAt (h : Nat) (oldName : String) (newDir : Nat) (newName : String)
  | opUnlinkAt (h : Nat) (name : String) (removeDir : Bool)
  | opSetAttr (h : Nat) (size attrs : Option Nat)
  | opWrite (h off : Nat) (data : Bytes)
  | opClunk (h : Nat)

/-- `validComponent`. -/
def validComponent (name : String) : Bool :=
  name != "" && name != "." && name != ".." &&
    name.toList.all fun char => char != '/' && char != '\\' && char != '\x00'

def nextIno : Tree → Nat
  | [] => 0
  | (_, .file ino) :: tree => max (ino + 1) (nextIno tree)
  | (_, .dir) :: tree | (_, .link _) :: tree => nextIno tree

namespace Host

def start (tree : Tree) (inodes : Nat → Inode) : Host :=
  { tree
    inodes
    nextIno := Confinement.nextIno tree
    fids := fun _ => none }

variable (host : Host)

def setFid (h : Nat) (fid : Option Fid) : Host :=
  { host with fids := update host.fids h fid }

def setInode (ino : Nat) (inode : Inode) : Host :=
  { host with inodes := update host.inodes ino inode }

def addEntry (path : Path) (node : Node) : Option Host :=
  match host.tree.lookup path with
  | none => some { host with tree := (path, node) :: host.tree }
  | some _ => none

def addFile (path : Path) : Option (Host × Nat) :=
  (host.addEntry path (.file host.nextIno)).map fun added =>
    ({ added.setInode host.nextIno ⟨Padded.blank 0, 0⟩ with
       nextIno := host.nextIno + 1 }, host.nextIno)

end Host

/-! ## The guard -/

namespace Export

variable (exp : Export)

def full (rel : Path) : Path :=
  exp.root ++ rel

variable (host : Host)

def evalSymlinks (path : Path) : Resolved :=
  host.tree.resolve true exp.evalLimit [] path

/-- The prefix test of `within`; a root of `/` matches only itself. -/
def inRoot (resolved : Path) : Bool :=
  decide (resolved = exp.root) || (!exp.root.isEmpty && decide (exp.root <+: resolved))

/-- `within`: a path that does not exist is judged by its parent.  `parents` is
the number of parents that remain. -/
def within (host : Host) : Nat → Path → Bool
  | parents, path =>
    match exp.evalSymlinks host path with
    | .found resolved => exp.inRoot resolved
    | .vacant _ | .failed .enoent =>
      match parents with
      | 0 => false
      | parents + 1 => within host parents path.dropLast
    | .failed _ => false

variable (rel : Path)

/-- `confinedFollow`. -/
def confinedFollow : Bool :=
  rel.isEmpty || exp.within host (exp.full rel).length (exp.full rel)

/-- `confinedParent`. -/
def confinedParent : Bool :=
  rel.isEmpty || exp.within host (exp.full rel).length (exp.full rel).dropLast

/-! ## The file system behind the guard -/

def kernel (follow : Bool) (rel : Path) : Resolved :=
  host.tree.resolve follow exp.kernelLimit [] (exp.full rel)

def lstat : Bool :=
  match exp.kernel host false rel with
  | .found _ => true
  | _ => false

/-- The directory in which an operation on the handle puts a name. -/
def enter : Option Path :=
  match exp.kernel host true rel with
  | .found path => if host.tree.isDir path then some path else none
  | _ => none

def walkLocal (host : Host) (rel : Path) : List String → Bool
  | [] => true
  | name :: names =>
    exp.lstat host (rel ++ [name]) && walkLocal host (rel ++ [name]) names

def walk (fid : Fid) (names : List String) : Option Fid :=
  let rel := fid.rel ++ names
  if names.isEmpty then some { rel := fid.rel, fd := none }
  else if names.all validComponent && exp.confinedParent host rel &&
      exp.walkLocal host fid.rel names then
    some { rel, fd := none }
  else none

/-- `open(2)`.  With `O_CREAT|O_EXCL` a link in the last position is not
followed. -/
def openLocal (flags : OpenFlags) : Option (Host × Option (Nat × Bool)) :=
  let exclusive := flags.creat && flags.excl
  match exp.kernel host (!exclusive) rel with
  | .found path =>
    match host.tree.lookup path with
    | some (.file ino) =>
      if exclusive then none
      else some (if flags.trunc then
          host.setInode ino { host.inodes ino with data := Padded.blank 0 }
        else host, some (ino, flags.writable))
    | some (.link _) => none
    | _ => if flags.writable || flags.creat then none else some (host, none)
  | .vacant path =>
    if flags.creat then
      (host.addFile path).map fun (added, ino) =>
        (added, some (ino, flags.writable))
    else none
  | .failed _ => none

def applyAttr (inode : Inode) (size attrs : Option Nat) : Inode :=
  { data := match size with
      | none => inode.data
      | some bytes => inode.data.resize bytes
    attrs := attrs.getD inode.attrs }

def setAttrLocal (size attrs : Option Nat) : Option Host :=
  match exp.kernel host true rel with
  | .found path =>
    match host.tree.lookup path with
    | some (.file ino) =>
      some (host.setInode ino (applyAttr (host.inodes ino) size attrs))
    | _ => none
  | _ => none

/-- `Link`, behind the guard. -/
def linkLocal (rel target : Path) (newName : String) : Option Host :=
  (exp.enter host rel).bind fun dir =>
    match exp.kernel host false target with
    | .found path =>
      match host.tree.lookup path with
      | some .dir | none => none
      | some held => host.addEntry (dir ++ [newName]) held
    | _ => none

/-- `UnlinkAt`, behind the guard. -/
def unlinkLocal (name : String) (removeDir : Bool) : Option Host :=
  (exp.enter host rel).bind fun dir =>
    let path := dir ++ [name]
    let removed := { host with tree := host.tree.remove path }
    match host.tree.lookup path with
    | none => none
    | some .dir =>
      if removeDir && !host.tree.hasChildren path then some removed
      else none
    | some _ => if removeDir then none else some removed

variable (tree : Tree)

/-- Whether `rename(2)` lets a node replace what is at the new path. -/
def replaces (node : Node) (new : Path) : Bool :=
  match node, tree.lookup new with
  | _, none => true
  | .dir, some .dir => !tree.hasChildren new
  | .dir, some _ => false
  | _, some .dir => false
  | _, some _ => true

/-- `RenameAt`, behind the guard. -/
def renameLocal (oldName : String) (newDir : Path) (newName : String) : Option Host :=
  (exp.enter host rel).bind fun oldParent =>
    (exp.enter host newDir).bind fun newParent =>
      let old := oldParent ++ [oldName]
      let new := newParent ++ [newName]
      (host.tree.lookup old).bind fun node =>
        if old = new then some host
        else if old <+: new then none
        else if replaces host.tree node new then
          some { host with tree := host.tree.move old new }
        else none

/-! ## Requests -/

/-- The effect of a request that is answered without an error. -/
def attempt : FsRequest → Option Host
  | .opAttach h => some (host.setFid h (some { rel := [], fd := none }))
  | .opWalk src newH names => do
    let fid ← host.fids src
    let child ← exp.walk host fid names
    some (host.setFid newH (some child))
  | .opWalkGetAttr src newH names => do
    let fid ← host.fids src
    let child ← exp.walk host fid names
    if exp.lstat host child.rel then
      some (host.setFid newH (some child))
    else none
  | .opOpen h flags => do
    let fid ← host.fids h
    if exp.confinedFollow host fid.rel then
      let (opened, fd) ← exp.openLocal host fid.rel (stripAppend flags)
      some (opened.setFid h (some { fid with fd }))
    else none
  | .opCreate h newH name flags => do
    let fid ← host.fids h
    if validComponent name then
      let dir ← exp.enter host fid.rel
      let (added, ino) ← host.addFile (dir ++ [name])
      some (added.setFid newH (some
        { rel := fid.rel ++ [name], fd := some (ino, (stripAppend flags).writable) }))
    else none
  | .opMkdir h name => do
    let fid ← host.fids h
    if validComponent name then
      let dir ← exp.enter host fid.rel
      host.addEntry (dir ++ [name]) .dir
    else none
  | .opSymlink h oldName newName => do
    let fid ← host.fids h
    if validComponent newName then
      let dir ← exp.enter host fid.rel
      host.addEntry (dir ++ [newName]) (.link oldName)
    else none
  | .opLink h target newName => do
    let fid ← host.fids h
    let tgt ← host.fids target
    if validComponent newName then
      exp.linkLocal host fid.rel tgt.rel newName
    else none
  | .opRenameAt h oldName newDir newName => do
    let fid ← host.fids h
    let dir ← host.fids newDir
    if validComponent oldName && validComponent newName then
      exp.renameLocal host fid.rel oldName dir.rel newName
    else none
  | .opUnlinkAt h name removeDir => do
    let fid ← host.fids h
    if validComponent name then
      exp.unlinkLocal host fid.rel name removeDir
    else none
  | .opSetAttr h size attrs => do
    let fid ← host.fids h
    if exp.confinedFollow host fid.rel then
      exp.setAttrLocal host fid.rel size attrs
    else none
  | .opWrite h off data => do
    let fid ← host.fids h
    match fid.fd with
    | some (ino, true) => some (host.setInode ino
        { host.inodes ino with data := (host.inodes ino).data.splice off data })
    | _ => none
  | .opClunk h => some (host.setFid h none)

/-- `dispatch`: a request that fails changes nothing. -/
def dispatch (request : FsRequest) : Option Host :=
  some ((exp.attempt host request).getD host)

/-! ## Confinement -/

/-- The path lies below the root. -/
def Inside (root path : Path) : Prop :=
  root <+: path ∧ path ≠ root

instance (root path : Path) : Decidable (Inside root path) :=
  inferInstanceAs (Decidable (_ ∧ _))

/-- A file of the tree none of whose names is below the root. -/
def Outsider (root : Path) (tree : Tree) (ino : Nat) : Prop :=
  (∃ path, (path, Node.file ino) ∈ tree) ∧ ∀ path, (path, Node.file ino) ∈ tree → ¬Inside root path

/-- Nothing outside the root was created, changed or removed. -/
structure Untouched (root : Path) (before after : Host) : Prop where
  entries : ∀ path, ¬Inside root path → after.tree.lookup path = before.tree.lookup path
  files : ∀ ino, Outsider root before.tree ino → after.inodes ino = before.inodes ino

/-- The root is a chain of directories, as `EvalSymlinks` returned it. -/
structure RootResolved : Prop where
  plain : ∀ name ∈ exp.root, name ≠ "" ∧ name ≠ "." ∧ name ≠ ".."
  dirs : ∀ chain, chain <+: exp.root → tree.lookup chain = some .dir

variable (h : Nat)

/-- The path of a handle leads below the root or to it, or nowhere. -/
def leadsInside : Bool :=
  match host.fids h with
  | none => true
  | some fid =>
    match exp.kernel host true fid.rel with
    | .found path => decide (exp.root <+: path)
    | _ => true

/-- The entry at the path of a handle is below the root. -/
def entryInside : Bool :=
  match host.fids h with
  | none => true
  | some fid =>
    match exp.kernel host false fid.rel with
    | .found path => decide (exp.root <+: path ∧ path ≠ exp.root)
    | _ => true

/-- The last component of the path of a handle is a symbolic link. -/
def endsInLink : Bool :=
  match host.fids h with
  | none => false
  | some fid =>
    match fid.rel.getLast?, exp.kernel host true fid.rel.dropLast with
    | some name, .found dir =>
      match host.tree.lookup (dir ++ [name]) with
      | some (.link _) => true
      | _ => false
    | _, _ => false

/-- The handles a request uses lead where they were confined to. -/
def Guarded : FsRequest → Bool
  | .opOpen h flags => !flags.creat || !exp.endsInLink host h
  | .opCreate h _ _ _ => exp.leadsInside host h
  | .opMkdir h _ => exp.leadsInside host h
  | .opSymlink h _ _ => exp.leadsInside host h
  | .opLink h target _ =>
    exp.leadsInside host h && exp.entryInside host target
  | .opRenameAt h _ newDir _ =>
    exp.leadsInside host h && exp.leadsInside host newDir
  | .opUnlinkAt h _ _ => exp.leadsInside host h
  | _ => true

/-- No run of allowed requests touches anything outside the root. -/
def StaysInside (allowed : Host → FsRequest → Prop) (tree : Tree) (inodes : Nat → Inode) : Prop :=
  ∀ requests final,
    Along exp.dispatch allowed (Host.start tree inodes) requests →
    run exp.dispatch (Host.start tree inodes) requests = some final →
      Untouched exp.root (Host.start tree inodes) final

/-! ### Where the guard lets a path lead -/

section Guard

variable {exp : Export} {host : Host}

theorem inRoot_prefix (inside : exp.inRoot resolved = true) : exp.root <+: resolved := by
  unfold inRoot at inside
  simp only [or_eq_true, and_eq_true, decide_eq_true_eq] at inside
  rcases inside with rfl | ⟨_, below⟩
  · exact prefix_refl _
  · exact below

variable {dir : Path} {parents fuel : Nat}

theorem inside_append (below : exp.root <+: dir) (name : String) :
    Inside exp.root (dir ++ [name]) := by
  refine ⟨below.trans (prefix_append _ _), ?_⟩
  intro same
  have long := below.length_le
  rw [← same, length_append, length_singleton] at long
  omega

variable {path : Path}

theorem inside_of_rootPath {other : Path} (inside : Inside exp.root path)
    (below : path <+: other) : Inside exp.root other := by
  refine ⟨inside.1.trans below, ?_⟩
  rintro rfl
  exact inside.2 (List.IsPrefix.eq_of_length_le below inside.1.length_le)

theorem within_found (accepted : exp.within host parents path = true)
    (reached : host.tree.resolve true fuel [] path = .found target) : exp.root <+: target := by
  unfold within evalSymlinks at accepted
  by_cases loops : host.tree.resolve true exp.evalLimit [] path = .failed .eloop
  · rw [loops] at accepted
    cases accepted
  · have agree := resolve_agree loops (by rw [reached]; simp)
    rw [agree, reached] at accepted
    exact inRoot_prefix accepted

theorem within_parent (accepted : exp.within host parents (path ++ [name]) = true)
    (plain : name ≠ "" ∧ name ≠ "." ∧ name ≠ "..")
    (reached : host.tree.resolve true fuel [] path = .found dir)
    (free : host.tree.lookup (dir ++ [name]) = none) : exp.root <+: dir := by
  have parent : exp.within host (parents - 1) path = true ∨
      ∃ target, exp.evalSymlinks host (path ++ [name]) = .found target := by
    unfold within at accepted
    split at accepted
    · exact .inr ⟨_, ‹_›⟩
    · cases parents with
      | zero => cases accepted
      | succ parents => exact .inl (by simpa using accepted)
    · cases parents with
      | zero => cases accepted
      | succ parents => exact .inl (by simpa using accepted)
    · cases accepted
  rcases parent with judged | ⟨target, found⟩
  · exact within_found judged reached
  -- The evaluation cannot find an entry where the kernel finds none.
  exfalso
  unfold evalSymlinks at found
  obtain ⟨middle, rest, first, second⟩ := resolve_append (cons_ne_nil name [])
    (by rw [found]; simp)
  have agree := resolve_agree (by rw [first]; simp)
    (by rw [reached]; simp)
  rw [first, reached, Resolved.found.injEq] at agree
  subst agree
  rw [found] at second
  cases rest with
  | zero => cases second
  | succ rest =>
    rw [resolve, if_neg (not_or.mpr ⟨plain.1, plain.2.1⟩), if_neg plain.2.2, free] at second
    cases second

end Guard

/-! ### What guarded requests keep -/

/-- What guarded requests keep, beside the outside itself: no name below the
root and no open handle belongs to a file outside, and the paths of handles have
plain components. -/
structure Safe (first host : Host) : Prop where
  entries : ∀ path, ¬Inside exp.root path → host.tree.lookup path = first.tree.lookup path
  files : ∀ ino, Outsider exp.root first.tree ino → host.inodes ino = first.inodes ino
  named : ∀ path ino, (path, Node.file ino) ∈ host.tree →
    Inside exp.root path → ¬Outsider exp.root first.tree ino
  held : ∀ h fid ino writable, host.fids h = some fid →
    fid.fd = some (ino, writable) → ¬Outsider exp.root first.tree ino
  fresh : ∀ ino, Outsider exp.root first.tree ino → ino < host.nextIno
  plain : ∀ h fid, host.fids h = some fid → ∀ name ∈ fid.rel, validComponent name = true

section Steps

variable {exp : Export} {first host : Host}

theorem Safe.untouched (safe : exp.Safe first host) : Untouched exp.root first host :=
  ⟨safe.entries, safe.files⟩

variable {path : Path} {ino : Nat}

theorem lt_nextIno {tree : Tree} (mem : (path, Node.file ino) ∈ tree) : ino < nextIno tree := by
  induction tree with
  | nil => cases mem
  | cons entry tree ih =>
    obtain ⟨place, node⟩ := entry
    rcases mem_cons.mp mem with same | later
    · cases same
      exact Nat.lt_of_lt_of_le (Nat.lt_succ_self _) (Nat.le_max_left _ _)
    · cases node with
      | dir => exact ih later
      | file other =>
        exact Nat.lt_of_lt_of_le (ih later) (Nat.le_max_right _ _)
      | link text => exact ih later

theorem safe_start (inodes : Nat → Inode) :
    exp.Safe (Host.start tree inodes) (Host.start tree inodes) where
  entries := fun _ _ => rfl
  files := fun _ _ => rfl
  named := fun path _ mem inside outsider =>
    outsider.2 path mem inside
  held := fun _ _ _ _ found => by cases found
  fresh := fun _ outsider => by
    obtain ⟨path, mem⟩ := outsider.1
    exact lt_nextIno mem
  plain := fun _ _ found => by cases found

theorem Safe.setFid (safe : exp.Safe first host) (h : Nat)
    (holds : ∀ new ino writable, fid = some new →
      new.fd = some (ino, writable) → ¬Outsider exp.root first.tree ino)
    (valid : ∀ new, fid = some new → ∀ name ∈ new.rel, validComponent name = true) :
    exp.Safe first (host.setFid h fid) := by
  refine { safe with held := ?_, plain := ?_ }
  · intro other found ino writable here fd
    obtain ⟨_, here⟩ | ⟨_, here⟩ := update_eq_iff.mp here
    · exact holds found ino writable here fd
    · exact safe.held other found ino writable here fd
  · intro other found here
    obtain ⟨_, here⟩ | ⟨_, here⟩ := update_eq_iff.mp here
    · exact valid found here
    · exact safe.plain other found here

theorem Safe.setInode (safe : exp.Safe first host)
    (mine : ¬Outsider exp.root first.tree ino) (inode : Inode) :
    exp.Safe first (host.setInode ino inode) := by
  refine { safe with files := ?_ }
  intro other outsider
  have ne : other ≠ ino := by
    rintro rfl
    exact mine outsider
  simp only [Host.setInode, update_of_ne ne]
  exact safe.files other outsider

variable {next : Host}

section

variable (safe : exp.Safe first host) (inside : Inside exp.root path)
include safe inside

theorem Safe.addEntry {node : Node}
    (mine : ∀ ino, node = .file ino → ¬Outsider exp.root first.tree ino)
    (added : host.addEntry path node = some next) : exp.Safe first next := by
  unfold Host.addEntry at added
  split at added <;> cases added
  refine { safe with entries := ?_, named := ?_ }
  · intro other outside
    have ne : path ≠ other := by
      rintro rfl
      exact outside inside
    rw [lookup_cons, if_neg ne]
    exact safe.entries other outside
  · intro other ino mem below
    rcases mem_cons.mp mem with same | before
    · cases same
      exact mine ino rfl
    · exact safe.named other ino before below

theorem Safe.addFile (added : host.addFile path = some (next, ino)) :
    exp.Safe first next ∧ ¬Outsider exp.root first.tree ino := by
  obtain ⟨grown, entry, equality⟩ := map_eq_some_iff.mp added
  cases equality
  have mine : ¬Outsider exp.root first.tree host.nextIno :=
    fun outsider => Nat.lt_irrefl _ (safe.fresh _ outsider)
  have kept := (safe.addEntry inside (by rintro number ⟨⟩; exact mine) entry).setInode mine
      ⟨Padded.blank 0, 0⟩
  refine ⟨{ kept with fresh := ?_ }, mine⟩
  intro number outsider
  exact Nat.lt_succ_of_lt (safe.fresh number outsider)

theorem Safe.remove : exp.Safe first { host with tree := host.tree.remove path } := by
  refine { safe with entries := ?_, named := ?_ }
  · intro other outside
    have ne : other ≠ path := by
      rintro rfl
      exact outside inside
    exact (lookup_remove ne).trans (safe.entries other outside)
  · intro other ino mem below
    exact safe.named other ino (mem_filter.mp mem).1 below

end

theorem Safe.move (safe : exp.Safe first host)
    (source : Inside exp.root old) (target : Inside exp.root new) :
    exp.Safe first { host with tree := host.tree.move old new } := by
  refine { safe with entries := ?_, named := ?_ }
  · intro path outside
    have apart : (host.tree.move old new).lookup path = host.tree.lookup path := by
      apply lookup_move
      · exact fun below => outside (inside_of_rootPath source below)
      · exact fun below => outside (inside_of_rootPath target below)
    exact apart.trans (safe.entries path outside)
  · intro path ino mem below
    obtain ⟨origin, before, same | ⟨from_, _⟩⟩ := mem_move mem
    · exact safe.named origin ino before (same ▸ below)
    · exact safe.named origin ino before (inside_of_rootPath source from_)

/-! ### Paths of handles -/

variable {rel dir : Path} {follow : Bool} {child : Fid}

theorem enter_found (entered : exp.enter host rel = some dir) :
    exp.kernel host true rel = .found dir := by
  unfold enter at entered
  split at entered
  · rename_i path reached
    split_ifs at entered
    cases entered
    exact reached
  · cases entered

variable {h : Nat} {fid : Fid}

theorem leadsInside_enter (leads : exp.leadsInside host h = true) (here : host.fids h = some fid)
    (entered : exp.enter host fid.rel = some dir) (name : String) :
    Inside exp.root (dir ++ [name]) := by
  unfold leadsInside at leads
  simp only [here, enter_found entered, decide_eq_true_eq] at leads
  exact inside_append leads name

theorem validComponent_plain (valid : validComponent name = true) :
    name ≠ "" ∧ name ≠ "." ∧ name ≠ ".." := by
  simp only [validComponent, and_eq_true, bne_iff_ne] at valid
  exact ⟨valid.1.1.1, valid.1.1.2, valid.1.2⟩

section

variable (safe : exp.Safe first host) (resolved : exp.RootResolved first.tree)
include safe resolved

theorem Safe.file_mine (below : exp.root <+: path)
    (found : host.tree.lookup path = some (.file ino)) : ¬Outsider exp.root first.tree ino := by
  apply safe.named path ino (mem_of_lookup found)
  refine ⟨below, ?_⟩
  rintro rfl
  rw [safe.entries _ (fun inside => inside.2 rfl), resolved.dirs _ (prefix_refl _)] at found
  cases found

theorem Safe.kernel_root (bounded : exp.kernel host follow [] ≠ .failed .eloop) :
    exp.kernel host follow [] = .found exp.root := by
  unfold kernel full at bounded ⊢
  rw [append_nil] at bounded ⊢
  refine resolve_dirs resolved.plain ?_ bounded
  intro chain chained _
  rw [nil_append, safe.entries chain, resolved.dirs chain chained]
  intro inside
  exact inside.2 (List.IsPrefix.eq_of_length_le chained inside.1.length_le)

theorem Safe.confinedFollow (accepted : exp.confinedFollow host rel = true)
    (reached : exp.kernel host true rel = .found path) : exp.root <+: path := by
  unfold Export.confinedFollow at accepted
  rcases or_eq_true_iff.mp accepted with top | judged
  · rw [isEmpty_iff.mp top] at reached
    have itself := safe.kernel_root resolved (by rw [reached]; simp)
    rw [reached, Resolved.found.injEq] at itself
    exact itself ▸ prefix_refl _
  · exact within_found judged reached

/-- A name that an open creates is below the root, unless the path of the handle
ends in a link. -/
theorem Safe.confinedCreate (here : host.fids h = some fid)
    (accepted : exp.confinedFollow host fid.rel = true) (noLink : exp.endsInLink host h = false)
    (reached : exp.kernel host follow fid.rel = .vacant path) : Inside exp.root path := by
  rcases eq_nil_or_concat fid.rel with top | ⟨init, name, split⟩
  · rw [top] at reached
    have itself := safe.kernel_root resolved (by rw [reached]; simp)
    rw [reached] at itself
    cases itself
  · rw [concat_eq_append] at split
    have plain := validComponent_plain (safe.plain h fid here name (by
      rw [split]
      exact mem_append_right _ mem_cons_self))
    have full : exp.full fid.rel = exp.full init ++ [name] := by
      rw [split, Export.full, Export.full, append_assoc]
    have outcome := reached
    unfold kernel at outcome
    rw [full] at outcome
    obtain ⟨dir, rest, parent, last⟩ := resolve_append (cons_ne_nil name [])
      (by rw [outcome]; simp)
    rw [outcome] at last
    have free : host.tree.lookup (dir ++ [name]) = none ∧ path = dir ++ [name] := by
      cases rest with
      | zero => cases last
      | succ rest =>
        rw [resolve, if_neg (not_or.mpr ⟨plain.1, plain.2.1⟩), if_neg plain.2.2] at last
        cases found : host.tree.lookup (dir ++ [name]) with
        | none =>
          simp only [found, if_pos, Resolved.vacant.injEq] at last
          exact ⟨rfl, last.symm⟩
        | some node =>
          exfalso
          cases node with
          | dir =>
            simp only [found] at last
            cases rest with
            | zero => cases last
            | succ rest => cases last
          | file ino =>
            simp only [found, if_pos] at last
            cases last
          | link text =>
            have shown : exp.endsInLink host h = true := by
              unfold endsInLink
              have parent' : exp.kernel host true init = .found dir := parent
              simp only [here, split, getLast?_concat, dropLast_concat, parent', found]
            rw [noLink] at shown
            cases shown
    have judged : exp.within host (exp.full fid.rel).length (exp.full init ++ [name]) = true := by
      rw [← full]
      rcases or_eq_true_iff.mp accepted with top | judged
      · rw [isEmpty_iff.mp top] at split
        exact absurd split.symm (append_ne_nil_of_right_ne_nil _ (cons_ne_nil _ _))
      · exact judged
    rw [free.2]
    exact inside_append (within_parent judged plain parent free.1) name

/-! ### Requests -/

theorem Safe.openLocal (here : host.fids h = some fid)
    (accepted : exp.confinedFollow host fid.rel = true)
    (guarded : flags.creat = true → exp.endsInLink host h = false)
    (opened : exp.openLocal host fid.rel flags = some (next, fd)) :
    exp.Safe first next ∧ ∀ ino writable, fd = some (ino, writable) →
      ¬Outsider exp.root first.tree ino := by
  unfold Export.openLocal at opened
  simp only at opened
  split at opened
  · rename_i path reached
    split at opened
    · rename_i ino found
      split_ifs at opened with exclusive trunc
      all_goals
        cases opened
        have followed : exp.kernel host true fid.rel = .found path := by
          rw [not_eq_true] at exclusive
          rwa [exclusive] at reached
        have mine := safe.file_mine resolved (safe.confinedFollow resolved accepted followed) found
      · exact ⟨safe.setInode mine _, by rintro number writable ⟨⟩; exact mine⟩
      · exact ⟨safe, by rintro number writable ⟨⟩; exact mine⟩
    · cases opened
    · split_ifs at opened
      cases opened
      exact ⟨safe, by rintro number writable ⟨⟩⟩
  · rename_i path reached
    split_ifs at opened with creat
    obtain ⟨⟨added, ino⟩, made, equality⟩ := map_eq_some_iff.mp opened
    cases equality
    obtain ⟨kept, mine⟩ := safe.addFile
      (safe.confinedCreate resolved here accepted (guarded creat) reached) made
    exact ⟨kept, by rintro number writable ⟨⟩; exact mine⟩
  · cases opened

theorem Safe.setAttrLocal (accepted : exp.confinedFollow host rel = true)
    (changed : exp.setAttrLocal host rel size attrs = some next) : exp.Safe first next := by
  unfold Export.setAttrLocal at changed
  split at changed
  · rename_i path reached
    split at changed <;> cases changed
    rename_i ino found
    exact safe.setInode (safe.file_mine resolved
      (safe.confinedFollow resolved accepted reached) found) _
  · cases changed

theorem Safe.linkLocal (here : host.fids h = some fid) (there : host.fids target = some tgt)
    (leads : exp.leadsInside host h = true) (entry : exp.entryInside host target = true)
    (linked : exp.linkLocal host fid.rel tgt.rel newName = some next) : exp.Safe first next := by
  obtain ⟨dir, entered, rest⟩ := bind_eq_some_iff.mp linked
  split at rest
  · rename_i path reached
    unfold entryInside at entry
    simp only [there, reached, decide_eq_true_eq] at entry
    split at rest
    · cases rest
    · cases rest
    rename_i node found
    apply safe.addEntry _ _ rest
    · exact leadsInside_enter leads here entered newName
    · rintro ino rfl
      exact safe.file_mine resolved entry.1 found
  · cases rest

end

section

variable (safe : exp.Safe first host)
include safe

theorem Safe.unlinkLocal (here : host.fids h = some fid) (leads : exp.leadsInside host h = true)
    (unlinked : exp.unlinkLocal host fid.rel name removeDir = some next) : exp.Safe first next := by
  obtain ⟨dir, entered, rest⟩ := bind_eq_some_iff.mp unlinked
  have removed := safe.remove (leadsInside_enter leads here entered name)
  cases found : host.tree.lookup (dir ++ [name]) with
  | none =>
    simp only [found] at rest
    cases rest
  | some node =>
    have done : some { host with tree := host.tree.remove (dir ++ [name]) } = some next := by
      cases node with
      | dir | file ino | link text =>
        simp only [found] at rest
        split_ifs at rest
        exact rest
    exact Option.some.inj done ▸ removed

theorem Safe.renameLocal {dir : Fid}
    (here : host.fids h = some fid) (there : host.fids newDir = some dir)
    (leads : exp.leadsInside host h = true) (leadsThere : exp.leadsInside host newDir = true)
    (renamed : exp.renameLocal host fid.rel oldName dir.rel newName = some next) :
    exp.Safe first next := by
  obtain ⟨oldParent, entered, rest⟩ := bind_eq_some_iff.mp renamed
  obtain ⟨newParent, enteredThere, more⟩ := bind_eq_some_iff.mp rest
  obtain ⟨node, _, final⟩ := bind_eq_some_iff.mp more
  split_ifs at final
  · cases final
    exact safe
  · cases final
    exact safe.move (leadsInside_enter leads here entered oldName)
      (leadsInside_enter leadsThere there enteredThere newName)

omit safe in
theorem walk_spec (walked : exp.walk host fid names = some child) :
    child.fd = none ∧ ∀ name ∈ child.rel, name ∈ fid.rel ∨ validComponent name = true := by
  simp only [Export.walk] at walked
  split_ifs at walked with clone checked
  · cases walked
    exact ⟨rfl, fun _ mem => .inl mem⟩
  · cases walked
    simp only [and_eq_true, List.all_eq_true] at checked
    refine ⟨rfl, fun name mem => ?_⟩
    exact (mem_append.mp mem).imp_right (checked.1.1 name)

theorem Safe.setWalked (here : host.fids src = some fid)
    (walked : exp.walk host fid names = some child) :
    exp.Safe first (host.setFid newH (some child)) := by
  obtain ⟨closed, parts⟩ := walk_spec walked
  apply safe.setFid
  · rintro new ino writable ⟨⟩ fd
    rw [closed] at fd
    cases fd
  · rintro new ⟨⟩ name mem
    exact (parts name mem).elim (safe.plain src fid here name) id

/-- A guarded request leaves everything outside the root alone. -/
theorem Safe.attempt (resolved : exp.RootResolved first.tree)
    (guarded : exp.Guarded host request = true) (taken : exp.attempt host request = some next) :
    exp.Safe first next := by
  cases request with
  | opAttach h =>
    cases taken
    apply safe.setFid
    · rintro new ino writable ⟨⟩ ⟨⟩
    · rintro new ⟨⟩ name mem
      cases mem
  | opWalk src newH names =>
    obtain ⟨fid, here, rest⟩ := bind_eq_some_iff.mp taken
    obtain ⟨child, walked, final⟩ := bind_eq_some_iff.mp rest
    cases final
    exact safe.setWalked here walked
  | opWalkGetAttr src newH names =>
    obtain ⟨fid, here, rest⟩ := bind_eq_some_iff.mp taken
    obtain ⟨child, walked, final⟩ := bind_eq_some_iff.mp rest
    split_ifs at final
    cases final
    exact safe.setWalked here walked
  | opOpen h flags =>
    obtain ⟨fid, here, rest⟩ := bind_eq_some_iff.mp taken
    split_ifs at rest with accepted
    obtain ⟨⟨opened, fd⟩, done, final⟩ := bind_eq_some_iff.mp rest
    cases final
    have noLink : (stripAppend flags).creat = true → exp.endsInLink host h = false := by
      intro creat
      simp only [Guarded, or_eq_true, not_eq_true'] at guarded
      have set : flags.creat = true := creat
      rw [set] at guarded
      exact guarded.resolve_left Bool.noConfusion
    obtain ⟨kept, mine⟩ := safe.openLocal resolved here accepted noLink done
    apply kept.setFid
    · rintro new ino writable ⟨⟩ held
      exact mine ino writable held
    · rintro new ⟨⟩
      exact safe.plain h fid here
  | opCreate h newH name flags =>
    obtain ⟨fid, here, rest⟩ := bind_eq_some_iff.mp taken
    split_ifs at rest with valid
    obtain ⟨dir, entered, more⟩ := bind_eq_some_iff.mp rest
    obtain ⟨⟨added, ino⟩, made, final⟩ := bind_eq_some_iff.mp more
    cases final
    obtain ⟨kept, mine⟩ := safe.addFile
      (leadsInside_enter guarded here entered name) made
    apply kept.setFid
    · rintro new number writable ⟨⟩ held
      cases held
      exact mine
    · rintro new ⟨⟩ other mem
      rcases mem_append.mp mem with before | last
      · exact safe.plain h fid here other before
      · rw [mem_singleton.mp last]
        exact valid
  | opMkdir h name | opSymlink h oldName name =>
    obtain ⟨fid, here, rest⟩ := bind_eq_some_iff.mp taken
    split_ifs at rest
    obtain ⟨dir, entered, added⟩ := bind_eq_some_iff.mp rest
    exact safe.addEntry (leadsInside_enter guarded here entered name)
      (fun ino same => by cases same) added
  | opLink h target newName =>
    obtain ⟨fid, here, rest⟩ := bind_eq_some_iff.mp taken
    obtain ⟨tgt, there, more⟩ := bind_eq_some_iff.mp rest
    split_ifs at more
    simp only [Guarded, and_eq_true] at guarded
    exact safe.linkLocal resolved here there guarded.1 guarded.2 more
  | opRenameAt h oldName newDir newName =>
    obtain ⟨fid, here, rest⟩ := bind_eq_some_iff.mp taken
    obtain ⟨dir, there, more⟩ := bind_eq_some_iff.mp rest
    split_ifs at more
    simp only [Guarded, and_eq_true] at guarded
    exact safe.renameLocal here there guarded.1 guarded.2 more
  | opUnlinkAt h name removeDir =>
    obtain ⟨fid, here, rest⟩ := bind_eq_some_iff.mp taken
    split_ifs at rest
    exact safe.unlinkLocal here guarded rest
  | opSetAttr h size attrs =>
    obtain ⟨fid, here, rest⟩ := bind_eq_some_iff.mp taken
    split_ifs at rest with accepted
    exact safe.setAttrLocal resolved accepted rest
  | opWrite h off data =>
    obtain ⟨fid, here, rest⟩ := bind_eq_some_iff.mp taken
    split at rest <;> cases rest
    rename_i ino held
    exact safe.setInode (safe.held h fid ino true here held) _
  | opClunk h =>
    cases taken
    exact safe.setFid h (by rintro new ino writable ⟨⟩) (by rintro new ⟨⟩)

end

end Steps

/-- So does every run of guarded requests. -/
theorem staysInside_of_guarded {exp : Export} {tree : Tree}
    (resolved : exp.RootResolved tree) (inodes : Nat → Inode) :
    exp.StaysInside (fun host request => exp.Guarded host request = true) tree inodes := by
  intro requests final along reached
  have preserved : ∀ host request next, exp.Safe (Host.start tree inodes) host →
      exp.Guarded host request = true →
      exp.dispatch host request = some next → exp.Safe (Host.start tree inodes) next := by
    intro host request next safe guarded taken
    cases outcome : exp.attempt host request with
    | none =>
      simp only [dispatch, outcome, getD_none, some.injEq] at taken
      exact taken ▸ safe
    | some changed =>
      simp only [dispatch, outcome, getD_some, some.injEq] at taken
      exact taken ▸ safe.attempt resolved guarded outcome
  exact (run_invariant preserved (safe_start tree inodes) along reached).untouched

/-- An export of `/srv` on a host with a directory `/etc`. -/
def srvExport : Export :=
  { root := ["srv"], kernelLimit := 40, evalLimit := 255 }

def srvTree : Tree :=
  [([], .dir), (["srv"], .dir), (["etc"], .dir), (["etc", "conf"], .file 0)]

theorem srvTree_resolved : srvExport.RootResolved srvTree := by
  constructor
  · decide
  · intro chain chained
    rcases prefix_cons_iff.mp chained with rfl | ⟨rest, rfl, none⟩
    · rfl
    · rw [prefix_nil.mp none]
      rfl

def plainFlags : OpenFlags :=
  { writable := true, creat := false, excl := false, trunc := false, append := true }

/-- A peer makes a directory, a file in it and a link, writes and truncates the
file, and renames the directory away. -/
def plainRun : List FsRequest :=
  [.opAttach 1, .opMkdir 1 "a", .opWalk 1 2 ["a"],
    .opCreate 2 3 "f" plainFlags, .opWrite 3 0 (Padded.replicate 4 7),
    .opSymlink 2 { absolute := true, parts := ["etc", "conf"] } "out",
    .opWalk 2 4 ["out"], .opOpen 4 plainFlags, .opSetAttr 3 (some 2) none,
    .opRenameAt 1 "a" 1 "b", .opUnlinkAt 1 "a" true]

def emptyInodes (_ : Nat) : Inode :=
  { data := Padded.blank 0, attrs := 0 }

theorem plainRun_untouched :
    ∃ final, run srvExport.dispatch (Host.start srvTree emptyInodes) plainRun = some final ∧
      Untouched srvExport.root (Host.start srvTree emptyInodes) final ∧
      (final.tree.lookup ["srv", "b", "f"]).isSome = true := by
  have observed : (run srvExport.dispatch (Host.start srvTree emptyInodes)
      plainRun).map (fun final =>
        (final.tree.lookup ["srv", "b", "f"]).isSome) = some true := by
    decide +kernel
  obtain ⟨final, reached, seen⟩ := map_eq_some_iff.mp observed
  have along : Along srvExport.dispatch (fun host request => srvExport.Guarded host request = true)
      (Host.start srvTree emptyInodes) plainRun := by decide +kernel
  exact ⟨final, reached, staysInside_of_guarded srvTree_resolved emptyInodes
    plainRun final along reached, seen⟩

/-- A peer plants a link to `/etc`, walks to it and creates a file there. -/
def escapeRun : List FsRequest :=
  [.opAttach 1, .opSymlink 1 { absolute := true, parts := ["etc"] } "link",
    .opWalk 1 2 ["link"], .opCreate 2 3 "cron" plainFlags]

theorem escape_not_staysInside : ¬srvExport.StaysInside (fun _ _ => True) srvTree emptyInodes := by
  intro stays
  have observed : (run srvExport.dispatch (Host.start srvTree emptyInodes)
      escapeRun).map (fun final =>
        (final.tree.lookup ["etc", "cron"]).isSome) = some true := by
    decide +kernel
  obtain ⟨final, reached, seen⟩ := map_eq_some_iff.mp observed
  have same := (stays escapeRun final (Along.of_events fun _ _ => trivial)
    reached).entries ["etc", "cron"] (by decide)
  rw [same] at seen
  exact absurd seen (by decide +kernel)

end Export

end Cornus.Confinement
