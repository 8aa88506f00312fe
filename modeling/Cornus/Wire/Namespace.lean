import Cornus.Wire.SequentialRuns

/-!
# Handles and names

The proxy keeps its cache, its size registry and its sequence table by the path
a handle was walked to, and so does the caller with its write sequence.  The
caller's open file, on the other hand, stays the same when its name is removed
or given to another file.  This module models the names of regular files, the
handles on them, and the requests that change either.  A handle that is open only
for writing reads the bytes it hashes through a clone, which is opened by path.  A
handle reads its own file in every run that keeps at most one file behind the
state of each path.
-/

namespace Cornus.Wire

open Nat Mount

open BlockCache Lib Function Option

/-! ## The caller's files -/

/-- Names of regular files and the contents of files.  A file is a number; those
from `next` on have never been used. -/
structure Tree (Path : Type) where
  names : Path → Option Nat
  content : Nat → Bytes
  next : Nat
  bounded : ∀ path inode, names path = some inode → inode < next

namespace Tree

variable {Path : Type} [DecidableEq Path] (tree : Tree Path) (path : Path)

/-- The path names a new, empty file. -/
def create : Tree Path :=
  { names := update tree.names path (some tree.next)
    content := update tree.content tree.next (Padded.blank 0)
    next := tree.next + 1
    bounded := by
      intro other inode named
      obtain ⟨_, rfl⟩ | ⟨_, named⟩ := update_eq_some_iff.mp named
      · exact Nat.lt_succ_self _
      · exact Nat.lt_succ_of_lt (tree.bounded other inode named) }

/-- The path names nothing; its file stays. -/
def unlink : Tree Path :=
  { tree with
    names := update tree.names path none
    bounded := by
      intro other inode named
      obtain ⟨_, ⟨⟩⟩ | ⟨_, named⟩ := update_eq_iff.mp named
      exact tree.bounded other inode named }

variable (oldPath newPath : Path)

/-- `rename(2)`: nothing happens when both names are of one file. -/
def renamed : Path → Option Nat :=
  if tree.names oldPath = tree.names newPath then tree.names
  else update (update tree.names newPath (tree.names oldPath)) oldPath none

theorem renamed_some {tree : Tree Path} {oldPath newPath path : Path}
    (named : tree.renamed oldPath newPath path = some inode) :
    tree.names path = some inode ∨ path = newPath ∧ tree.names oldPath = some inode := by
  unfold renamed at named
  split_ifs at named
  · exact .inl named
  obtain ⟨_, ⟨⟩⟩ | ⟨_, named⟩ := update_eq_iff.mp named
  obtain isNew | ⟨_, named⟩ := update_eq_iff.mp named
  · exact .inr isNew
  · exact .inl named

/-- The names after `rename(2)`. -/
def rename : Tree Path :=
  { tree with
    names := tree.renamed oldPath newPath
    bounded := by
      intro path inode named
      rcases renamed_some named with before | ⟨_, before⟩
      · exact tree.bounded path inode before
      · exact tree.bounded oldPath inode before }

/-- A file gets new contents. -/
def write (inode : Nat) (bytes : Bytes) : Tree Path :=
  { tree with content := update tree.content inode bytes }

end Tree

/-! ## The state of a mount -/

/-- A handle: the path it was walked to and the file it was opened on. -/
structure Handle (Path : Type) where
  path : Path
  inode : Option Nat
deriving DecidableEq

/-- What a handle was opened for. -/
inductive OpenMode where
  | readOnly
  | writeOnly
  | readWrite
deriving DecidableEq

/-- The read-only clone of a handle: not asked for yet, refused for good, or open
on a file. -/
inductive Clone where
  | untried
  | refused
  | opened (inode : Nat)
deriving DecidableEq

namespace Clone

/-- `readOnly`: the first call opens the file that the handle's path names now. -/
def readOnly (named : Option Nat) (readable : Bool) : Clone → Clone
  | .untried =>
    match named with
    | some inode => if readable then .opened inode else .refused
    | none => .refused
  | tried => tried

/-- The file the clone is open on. -/
def inode : Clone → Option Nat
  | .opened inode => some inode
  | _ => none

end Clone

/-- The caller's tree, the handles with their modes and clones, and the state both
endpoints keep by path. -/
structure Volume (Path Entry : Type) where
  tree : Tree Path
  handles : Nat → Option (Handle Path)
  modes : Nat → OpenMode
  clones : Nat → Clone
  seqs : Path → Nat
  dirty : Path → List Nat
  buckets : Path → Option Entry
  lasts : Path → Nat → Option Nat
  sizes : Path → Nat

namespace Volume

variable {Path Entry : Type}

/-- A mount that was just attached: nothing is open or cached. -/
def attached (tree : Tree Path) : Volume Path Entry :=
  { tree
    handles := fun _ => none
    modes := fun _ => .readOnly
    clones := fun _ => .untried
    seqs := fun _ => 0
    dirty := fun _ => []
    buckets := fun _ => none
    lasts := fun _ _ => none
    sizes := fun _ => 0 }

/-- What a handle on `path` that is open on `inode` works with. -/
def session (volume : Volume Path Entry) (path : Path) (inode : Nat) : Session Entry :=
  { file := volume.tree.content inode, seq := volume.seqs path, dirty := volume.dirty path,
    bucket := volume.buckets path, last := volume.lasts path, size := volume.sizes path }

variable [DecidableEq Path] (volume : Volume Path Entry) (path : Path)

/-- What a handle on `path` that is open on `inode` leaves. -/
def put (inode : Nat) (session : Session Entry) : Volume Path Entry :=
  { volume with
    tree := volume.tree.write inode session.file
    seqs := update volume.seqs path session.seq
    dirty := update volume.dirty path session.dirty
    buckets := update volume.buckets path session.bucket
    lasts := update volume.lasts path session.last
    sizes := update volume.sizes path session.size }

/-- The handle stands for the entry, or is free. -/
def setHandle (handle : Nat) (entry : Option (Handle Path)) : Volume Path Entry :=
  { volume with handles := update volume.handles handle entry }

/-- A handle is opened in a mode; it has no clone. -/
def setMode (handle : Nat) (mode : OpenMode) : Volume Path Entry :=
  { volume with
    modes := update volume.modes handle mode
    clones := update volume.clones handle .untried }

/-- The bucket and the sequence table of a path are dropped. -/
def forget : Volume Path Entry :=
  { volume with
    buckets := update volume.buckets path none
    lasts := update volume.lasts path fun _ => none }

end Volume

/-! ## Requests -/

/-- A request.  `truncates` is `O_TRUNC`, and `readable` says whether the caller may
open the path of a written file for reading. -/
inductive NameRequest (Path : Type) where
  | walk (handle : Nat) (path : Path)
  | openFile (handle mtimeNs : Nat) (mode : OpenMode) (truncates : Bool)
  | create (handle : Nat) (path : Path) (mode : OpenMode)
  | unlinkAt (path : Path)
  | renameAt (oldPath newPath : Path)
  | readAt (handle off length : Nat)
  | writeAt (handle off : Nat) (data : Bytes) (mtimeNs : Nat) (readable : Bool)
  | close (handle : Nat)

section Steps

variable {Hash Entry Path : Type} [Inhabited Hash] [DecidableEq Hash]
variable [DecidableEq Path]

/-- The session once the caller has opened the file. -/
def Session.opened (truncates : Bool) (session : Session Entry) : Session Entry :=
  if truncates then { session with file := Padded.blank 0 } else session

/-- A request on an open handle, by the handle's path and file. -/
def Volume.withOpen (volume : Volume Path Entry) (handle : Nat)
    (act : Path → Nat → Volume Path Entry) : Option (Volume Path Entry) :=
  (volume.handles handle).bind fun entry => entry.inode.map (act entry.path)

namespace Mount

variable (mount : Mount Hash Entry)

/-- A digest of the reply is over bytes that the write does not cover. -/
def readsBack (off n size : Nat) : Bool :=
  if mount.features.deferHash then false
  else if mount.features.subBlockHash then
    (forEachWriteUnit mount.chunk mount.features off n size).any fun (b, subOff, length) =>
      !decide (off ≤ b * mount.chunk.bytes + subOff ∧
        b * mount.chunk.bytes + subOff + length ≤ off + n)
  else
    (writtenBlocks mount.chunk off n).any fun b =>
      decide (b * mount.chunk.bytes < blockValidEnd mount.chunk b size) &&
        !decide (off ≤ b * mount.chunk.bytes ∧ blockValidEnd mount.chunk b size ≤ off + n)

variable (session : Session Entry) (off : Nat) (data : Bytes) (mtimeNs : Nat)

/-- `WriteAt` when the digests are read back from a file, or cannot be read.  In the
second case the file has changed and the reply is an error, so that the proxy
applies nothing. -/
def writeBack (back : Option Bytes) : Session Entry :=
  let (written, reply) := mount.handleWrite session off data mtimeNs
  match back with
  | none => written
  | some file =>
    mount.applyReply written off data
      { reply with
        units := replyUnits mount.hashChunk mount.chunk mount.features file data off reply.n
          reply.size }

/-- `WriteAt` on a handle of `path` open on `inode`. -/
def writeOpen (volume : Volume Path Entry) (handle : Nat) (readable : Bool) (path : Path)
    (inode : Nat) : Volume Path Entry :=
  let session := volume.session path inode
  let file := fileWriteAt session.file off data
  if volume.modes handle = .writeOnly ∧ mount.readsBack off data.len file.len then
    let clone := (volume.clones handle).readOnly (volume.tree.names path) readable
    { volume.put path inode (mount.writeBack session off data mtimeNs
        (clone.inode.map (update volume.tree.content inode file))) with
      clones := update volume.clones handle clone }
  else volume.put path inode (mount.writeAt session off data mtimeNs)

end Mount

/-- One request.  A request that the caller refuses changes nothing. -/
def Mount.nameStep (mount : Mount Hash Entry) (volume : Volume Path Entry) :
    NameRequest Path → Option (Volume Path Entry)
  | .walk handle path =>
    if (volume.handles handle).isSome ∨ volume.tree.names path = none then
      none
    else some (volume.setHandle handle (some { path, inode := none }))
  | .openFile handle mtimeNs mode truncates =>
    (volume.handles handle).bind fun entry =>
      if entry.inode.isSome then none
      else
        (volume.tree.names entry.path).map fun inode =>
          let session := (volume.session entry.path inode).opened truncates
          (Volume.setHandle (volume.put entry.path inode (mount.openFile session mtimeNs))
            handle (some { entry with inode := some inode })).setMode handle mode
  | .create handle path mode =>
    if (volume.handles handle).isSome ∨ (volume.tree.names path).isSome then none
    else
      let created := { volume with tree := volume.tree.create path }
      let forgotten := created.forget path
      some ((Volume.setHandle { forgotten with sizes := update volume.sizes path 0 }
        handle (some { path, inode := some volume.tree.next })).setMode handle mode)
  | .unlinkAt path =>
    if volume.tree.names path = none then none
    else some (Volume.forget { volume with tree := volume.tree.unlink path } path)
  | .renameAt oldPath newPath =>
    if volume.tree.names oldPath = none then none
    else some { volume with
        tree := volume.tree.rename oldPath newPath
        buckets := mount.store.rename volume.buckets oldPath newPath
        lasts := update (update volume.lasts oldPath fun _ => none) newPath fun _ => none }
  | .readAt handle off length =>
    if volume.modes handle = .writeOnly then none
    else volume.withOpen handle fun path inode =>
      volume.put path inode (mount.readAt (volume.session path inode) off length).1
  | .writeAt handle off data mtimeNs readable =>
    if volume.modes handle = .readOnly then none
    else volume.withOpen handle (mount.writeOpen off data mtimeNs volume handle readable)
  | .close handle =>
    if volume.handles handle = none then none
    else some (volume.setHandle handle none)

end Steps

/-! ## One file behind each path -/

section Conditions

variable {Hash Entry Path : Type}

/-- The file behind the state of a path: the one it names, or one that a handle
walked to it is open on. -/
def Volume.Owns (volume : Volume Path Entry) (path : Path) (inode : Nat) : Prop :=
  volume.tree.names path = some inode ∨
    ∃ handle, volume.handles handle = some { path, inode := some inode }

/-- No handle walked to the path is open. -/
def Volume.Unopened (volume : Volume Path Entry) (path : Path) : Prop :=
  ∀ handle inode, volume.handles handle ≠ some { path, inode := some inode }

/-- Nothing is kept for a file under another path. -/
def Volume.Alone (volume : Volume Path Entry) (path : Path) (inode : Nat) : Prop :=
  (∀ handle other, volume.handles handle = some { path := other, inode := some inode } →
      other = path) ∧
    ∀ other, other ≠ path → volume.tree.names other = some inode → volume.buckets other = none

/-- The size and time kept with a bucket are not those of an empty file. -/
def Mount.SeesCut (mount : Mount Hash Entry) (bucket : Option Entry) (mtimeNs : Nat) : Prop :=
  bucket = none ∨ ∃ hint, mount.store.hint bucket = some hint ∧ hint ≠ (0, mtimeNs)

variable [DecidableEq Hash] (mount : Mount Hash Entry) (view : View Entry)
  (volume : Volume Path Entry)

/-- The requests stay in range.  A name is given to a file only while no handle
walked to it is open, and a file is written or truncated only while nothing is kept
for it under another path.  What a write-only handle has to read back, it reads from
its own file. -/
def Mount.Apart : NameRequest Path → Prop
  | .openFile handle mtimeNs _ truncates => ∀ path inode,
      volume.handles handle = some { path, inode := none } →
      volume.tree.names path = some inode →
      (volume.session path inode).InRange mount.chunk 0 ∧
      (truncates = true → volume.Alone path inode ∧ mount.SeesCut (volume.buckets path) mtimeNs)
  | .create _ path _ => volume.Unopened path
  | .renameAt oldPath newPath => oldPath ≠ newPath →
      volume.Unopened newPath ∧ (volume.buckets oldPath = none → volume.buckets newPath = none)
  | .readAt handle off length => ∀ path inode,
      volume.handles handle = some { path, inode := some inode } →
      (volume.session path inode).InRange mount.chunk (off + length)
  | .writeAt handle off data _ readable => ∀ path inode,
      volume.handles handle = some { path, inode := some inode } →
      (volume.session path inode).InRange mount.chunk (off + data.len) ∧
      volume.Alone path inode ∧ mount.AllowsWrite view (volume.session path inode) off data ∧
      (volume.modes handle = .writeOnly →
        mount.readsBack off data.len (fileWriteAt (volume.tree.content inode) off data).len →
        (volume.clones handle).readOnly (volume.tree.names path) readable = .opened inode)
  | _ => True

omit [DecidableEq Hash] in
/-- What the requests keep: one known file behind each path, with which the state of
the path agrees. -/
structure Mount.Kept : Prop where
  owner : ∀ path inode other, volume.Owns path inode → volume.Owns path other → inode = other
  known : ∀ path inode, volume.Owns path inode → inode < volume.tree.next
  good : ∀ path inode, volume.Owns path inode → mount.Good view (volume.session path inode)
  sized : ∀ handle path inode, volume.handles handle = some { path, inode := some inode } →
    volume.sizes path = (volume.tree.content inode).len

end Conditions

section Keeps

variable {Hash Entry Path : Type} {mount : Mount Hash Entry} {view : View Entry}
  {volume : Volume Path Entry}

theorem Mount.Good.of_empty (lawful : mount.Lawful view)
    {session : Session Entry} (bucket : session.bucket = none)
    (fresh : ∀ b seq, session.last b = some seq → seq ≤ session.seq) : mount.Good view session where
  coherent := bucket ▸ View.coherent_none lawful
  fresh
  uniform := fun _ idx => bucket ▸ .inr (lawful.vacant_none idx)

/-- A proxy that sees a truncated file drops what it has cached of it. -/
theorem openFile_good_opened (lawful : mount.Lawful view) {session : Session Entry}
    (good : mount.Good view session)
    (seen : truncates = true → mount.SeesCut session.bucket mtimeNs) :
    mount.Good view (mount.openFile (session.opened truncates) mtimeNs) := by
  cases truncates with
  | false => exact openFile_good lawful good mtimeNs
  | true =>
    rcases seen rfl with empty | ⟨⟨size, time⟩, hint, differs⟩
    · exact openFile_good lawful
        (@Mount.Good.of_empty _ _ _ _ lawful (session.opened true) empty good.fresh) mtimeNs
    have stale : size ≠ (Padded.blank 0 : Bytes).len ∨ time ≠ mtimeNs := by
      change size ≠ 0 ∨ _
      grind
    have dropped : mount.openFile (session.opened true) mtimeNs = { session with
        file := Padded.blank 0, size := 0, last := fun _ => none
        bucket := mount.store.setHint none 0 mtimeNs } := by
      simp only [openFile, Session.opened, if_true, hint]
      rw [decide_eq_true stale]
      rfl
    rw [dropped]
    refine ⟨View.Coherent.setHint lawful (View.coherent_none lawful) _ _, ?_, fun _ =>
      View.Uniform.setHint lawful (fun idx => .inr (lawful.vacant_none idx)) _ _⟩
    rintro b seq ⟨⟩

theorem Mount.Kept.setHandle (kept : mount.Kept view volume) (handle : Nat) (closed : ∀ path inode,
      entry ≠ some { path, inode := some inode }) :
    mount.Kept view (volume.setHandle handle entry) := by
  have before : ∀ other path inode, (volume.setHandle handle entry).handles other =
        some { path, inode := some inode } →
      volume.handles other = some { path, inode := some inode } := by
    intro other path inode found
    obtain ⟨_, found⟩ | ⟨_, found⟩ := update_eq_iff.mp found
    · exact absurd found (closed path inode)
    · exact found
  have owns : ∀ path inode, (volume.setHandle handle entry).Owns path inode →
      volume.Owns path inode := by
    rintro path inode (named | ⟨other, found⟩)
    · exact .inl named
    · exact .inr ⟨other, before other path inode found⟩
  constructor
  · exact fun path inode other left right =>
      kept.owner path inode other (owns path inode left) (owns path other right)
  · exact fun path inode owned => kept.known path inode (owns path inode owned)
  · exact fun path inode owned => kept.good path inode (owns path inode owned)
  · exact fun other path inode found =>
      kept.sized other path inode (before other path inode found)

theorem Mount.Kept.setMode (kept : mount.Kept view volume) (handle : Nat) (mode : OpenMode) :
    mount.Kept view (volume.setMode handle mode) :=
  ⟨kept.owner, kept.known, kept.good, kept.sized⟩

variable [DecidableEq Path]

section Put

variable {path : Path} {inode : Nat} {session : Session Entry}

theorem Volume.put_session : (volume.put path inode session).session path inode = session := by
  simp only [Volume.session, Volume.put, Tree.write, update_self]

theorem Volume.put_session_of_ne
    (path_ne : other ≠ path) (content : found ≠ inode ∨ session.file = volume.tree.content inode) :
    (volume.put path inode session).session other found = volume.session other found := by
  have same : update volume.tree.content inode session.file found = volume.tree.content found := by
    by_cases differs : found = inode
    · subst differs
      rw [update_self]
      exact content.resolve_left fun unequal => unequal rfl
    · exact update_of_ne differs _ _
  simp only [Volume.session, Volume.put, Tree.write, same, update_of_ne path_ne]

/-- A request on the file behind a path.  What is kept for the file under other
paths must not depend on the bytes that change. -/
theorem Mount.Kept.put (lawful : mount.Lawful view)
    (kept : mount.Kept view volume) (owned : volume.Owns path inode)
    (good : mount.Good view session) (sized : (∃ handle, volume.handles handle =
      some { path, inode := some inode }) →
      session.size = session.file.len)
    (apart : session.file = volume.tree.content inode ∨ volume.Alone path inode) :
    mount.Kept view (volume.put path inode session) where
  __ := kept
  good := by
    intro other found owns
    have before : volume.Owns other found := owns
    by_cases samePath : other = path
    · subst samePath
      obtain rfl := kept.owner other inode found owned before
      rw [Volume.put_session]
      exact good
    · rcases apart with unchanged | ⟨opened, named⟩
      · rw [Volume.put_session_of_ne samePath (.inr unchanged)]
        exact kept.good other found before
      · by_cases sameFile : found = inode
        · subst sameFile
          rcases before with name | ⟨handle, walked⟩
          · apply Mount.Good.of_empty lawful
            · simp only [Volume.session, Volume.put, update_of_ne samePath]
              exact named other samePath name
            · simp only [Volume.session, Volume.put, update_of_ne samePath]
              exact (kept.good other found owns).fresh
          · exact absurd (opened handle other walked) samePath
        · rw [Volume.put_session_of_ne samePath (.inl sameFile)]
          exact kept.good other found before
  sized := by
    intro handle other found walked
    have before : volume.handles handle = some { path := other, inode := some found } := walked
    by_cases samePath : other = path
    · subst samePath
      obtain rfl := kept.owner other inode found owned (.inr ⟨_, before⟩)
      simp only [Volume.put, Tree.write, update_self]
      exact sized ⟨handle, before⟩
    · simp only [Volume.put, Tree.write, update_of_ne samePath]
      rw [kept.sized handle other found before]
      by_cases sameFile : found = inode
      · subst sameFile
        rw [update_self]
        rcases apart with unchanged | ⟨opened, _⟩
        · rw [unchanged]
        · exact absurd (opened handle other before) samePath
      · rw [update_of_ne sameFile]

end Put

section

variable (lawful : mount.Lawful view) (kept : mount.Kept view volume)
include lawful kept

theorem Mount.Kept.openFile {session : Session Entry} (handle : Nat)
    (named : volume.tree.names path = some inode) (good : mount.Good view session)
    (sized : session.size = session.file.len)
    (apart : session.file = volume.tree.content inode ∨ volume.Alone path inode) :
    mount.Kept view ((volume.put path inode session).setHandle handle
        (some { path, inode := some inode })) := by
  have owned : volume.Owns path inode := .inl named
  have put := kept.put lawful owned good (fun _ => sized) apart
  have before : ∀ other found, ((volume.put path inode session).setHandle handle
      (some { path, inode := some inode })).Owns other found → volume.Owns other found := by
    rintro other found (name | ⟨holder, opened⟩)
    · exact .inl name
    · obtain ⟨_, ⟨⟩⟩ | ⟨_, opened⟩ := update_eq_iff.mp opened
      · exact owned
      · exact .inr ⟨holder, opened⟩
  constructor
  · exact fun other found third left right => put.owner other found third
      (before other found left) (before other third right)
  · exact fun other found owns => put.known other found (before other found owns)
  · exact fun other found owns => put.good other found (before other found owns)
  · intro holder other found opened
    obtain ⟨_, ⟨⟩⟩ | ⟨_, opened⟩ := update_eq_iff.mp opened
    · simp only [Volume.setHandle, Volume.put, Tree.write, update_self]
      exact sized
    · exact put.sized holder other found opened

theorem Mount.Kept.create (unopened : volume.Unopened path) : mount.Kept view (Volume.setHandle
        { Volume.forget { volume with tree := volume.tree.create path } path
          with sizes := update volume.sizes path 0 } handle
        (some { path, inode := some volume.tree.next })) := by
  have owns : ∀ other found, (Volume.setHandle
      { Volume.forget { volume with tree := volume.tree.create path } path
        with sizes := update volume.sizes path 0 } handle
      (some { path, inode := some volume.tree.next })).Owns other found →
      other = path ∧ found = volume.tree.next ∨ other ≠ path ∧ volume.Owns other found := by
    rintro other found (name | ⟨holder, opened⟩)
    · obtain ⟨rfl, ⟨⟩⟩ | ⟨same, name⟩ := update_eq_iff.mp name
      · exact .inl ⟨rfl, rfl⟩
      · exact .inr ⟨same, .inl name⟩
    · obtain ⟨_, ⟨⟩⟩ | ⟨_, opened⟩ := update_eq_iff.mp opened
      · exact .inl ⟨rfl, rfl⟩
      · refine .inr ⟨?_, .inr ⟨holder, opened⟩⟩
        rintro rfl
        exact unopened holder found opened
  have old : ∀ other found, volume.Owns other found →
      update volume.tree.content volume.tree.next (Padded.blank 0)
        found = volume.tree.content found := by
    intro other found owned
    exact update_of_ne (Nat.ne_of_lt (kept.known other found owned)) _ _
  constructor
  · intro other found third left right
    rcases owns other found left with ⟨rfl, rfl⟩ | ⟨differs, before⟩
    · rcases owns other third right with ⟨_, rfl⟩ | ⟨differs, _⟩
      · rfl
      · exact absurd rfl differs
    · rcases owns other third right with ⟨same, _⟩ | ⟨_, beforeToo⟩
      · exact absurd same differs
      · exact kept.owner other found third before beforeToo
  · intro other found owned
    rcases owns other found owned with ⟨_, rfl⟩ | ⟨_, before⟩
    · exact lt_succ_self _
    · exact lt_succ_of_lt (kept.known other found before)
  · intro other found owned
    rcases owns other found owned with ⟨rfl, rfl⟩ | ⟨differs, before⟩
    · apply Mount.Good.of_empty lawful
      · simp only [Volume.session, Volume.setHandle, Volume.forget, update_self]
      · intro b seq entry
        simp only [Volume.session, Volume.setHandle, Volume.forget, update_self] at entry
        cases entry
    · have same := kept.good other found before
      simp only [Volume.session, Volume.setHandle, Volume.forget,
        Tree.create, update_of_ne differs, old other found before]
      exact same
  · intro holder other found opened
    rcases owns other found (.inr ⟨holder, opened⟩) with
      ⟨rfl, rfl⟩ | ⟨differs, before⟩
    · simp only [Volume.setHandle, Volume.forget, Tree.create, update_self]
      rfl
    · have earlier : volume.handles holder = some { path := other, inode := some found } := by
        obtain ⟨_, ⟨⟩⟩ | ⟨_, opened⟩ := update_eq_iff.mp opened
        · exact absurd rfl differs
        · exact opened
      simp only [Volume.setHandle, Volume.forget, Tree.create,
        update_of_ne differs, old other found before]
      exact kept.sized holder other found earlier

theorem Mount.Kept.unlink (path : Path) :
    mount.Kept view (Volume.forget { volume with tree := volume.tree.unlink path } path) := by
  have owns : ∀ other found, (Volume.forget
      { volume with tree := volume.tree.unlink path } path).Owns other
        found → volume.Owns other found := by
    rintro other found (name | opened)
    · obtain ⟨_, ⟨⟩⟩ | ⟨_, name⟩ := update_eq_iff.mp name
      exact .inl name
    · exact .inr opened
  constructor
  · exact fun other found third left right => kept.owner other found third
      (owns other found left) (owns other third right)
  · exact fun other found owned => kept.known other found (owns other found owned)
  · intro other found owned
    by_cases same : other = path
    · subst same
      apply Mount.Good.of_empty lawful
      · simp only [Volume.session, Volume.forget, update_self]
      · intro b seq entry
        simp only [Volume.session, Volume.forget, update_self] at entry
        cases entry
    · have before := kept.good other found (owns other found owned)
      simp only [Volume.session, Volume.forget, Tree.unlink, update_of_ne same]
      exact before
  · exact kept.sized

end

section Rename

variable {oldPath newPath : Path}

theorem rename_buckets (store : Store Hash Entry)
    {buckets : Path → Option Entry} (differs : oldPath ≠ newPath)
    (replaced : buckets oldPath = none → buckets newPath = none) :
    store.rename buckets oldPath newPath =
      update (update buckets newPath (buckets oldPath)) oldPath none := by
  simp only [Store.rename, if_neg differs]
  cases source : buckets oldPath with
  | none =>
    have same : update buckets newPath none = buckets :=
      update_eq_self_iff.mpr (replaced source).symm
    rw [same]
    exact (update_eq_self_iff.mpr source.symm).symm
  | some entry => rfl

theorem Mount.Kept.rename (lawful : mount.Lawful view)
    (kept : mount.Kept view volume) (differs : oldPath ≠ newPath)
    (unopened : volume.Unopened newPath)
    (replaced : volume.buckets oldPath = none → volume.buckets newPath = none) :
    mount.Kept view { volume with
        tree := volume.tree.rename oldPath newPath
        buckets := mount.store.rename volume.buckets oldPath newPath
        lasts := update (update volume.lasts oldPath fun _ => none) newPath fun _ => none } := by
  rw [rename_buckets mount.store differs replaced]
  have owns : ∀ other found, Volume.Owns { volume with
        tree := volume.tree.rename oldPath newPath
        buckets := update (update volume.buckets newPath (volume.buckets oldPath)) oldPath none
        lasts := update (update volume.lasts oldPath fun _ => none) newPath
          fun _ => none } other found →
      other = newPath ∧ volume.Owns oldPath found ∨ other ≠ newPath ∧ volume.Owns other found := by
    rintro other found (name | ⟨handle, opened⟩)
    · by_cases isNew : other = newPath
      · subst isNew
        refine .inl ⟨rfl, .inl ?_⟩
        simp only [Tree.rename, Tree.renamed] at name
        split_ifs at name with linked
        · exact linked.trans name
        · rwa [update_of_ne differs.symm, update_self] at name
      · rcases Tree.renamed_some name with before | ⟨same, _⟩
        · exact .inr ⟨isNew, .inl before⟩
        · exact absurd same isNew
    · refine .inr ⟨?_, .inr ⟨handle, opened⟩⟩
      rintro rfl
      exact unopened handle found opened
  constructor
  · intro other found third left right
    rcases owns other found left with ⟨isNew, before⟩ | ⟨notNew, before⟩
    · rcases owns other third right with ⟨_, beforeToo⟩ | ⟨notNew, _⟩
      · exact kept.owner oldPath found third before beforeToo
      · exact absurd isNew notNew
    · rcases owns other third right with ⟨isNew, _⟩ | ⟨_, beforeToo⟩
      · exact absurd isNew notNew
      · exact kept.owner other found third before beforeToo
  · intro other found owned
    rcases owns other found owned with ⟨_, before⟩ | ⟨_, before⟩
    · exact kept.known oldPath found before
    · exact kept.known other found before
  · intro other found owned
    rcases owns other found owned with ⟨rfl, before⟩ | ⟨notNew, before⟩
    · have source := kept.good oldPath found before
      constructor
      · simp only [Volume.session, update_of_ne differs.symm, update_self]
        exact source.coherent
      · intro b seq entry
        simp only [Volume.session, update_self] at entry
        cases entry
      · simp only [Volume.session, update_of_ne differs.symm, update_self]
        exact source.uniform
    · by_cases isOld : other = oldPath
      · subst isOld
        apply Mount.Good.of_empty lawful
        · simp only [Volume.session, update_self]
        · intro b seq entry
          simp only [Volume.session, update_of_ne notNew, update_self] at entry
          cases entry
      · have same := kept.good other found before
        simp only [Volume.session, update_of_ne notNew, update_of_ne isOld]
        exact same
  · exact kept.sized

theorem Mount.Kept.rename_self (kept : mount.Kept view volume) (path : Path) :
    mount.Kept view { volume with
        tree := volume.tree.rename path path
        buckets := mount.store.rename volume.buckets path path
        lasts := update (update volume.lasts path fun _ => none) path fun _ => none } := by
  have names : volume.tree.rename path path = volume.tree := by
    simp only [Tree.rename, Tree.renamed, if_true]
  have buckets : mount.store.rename volume.buckets path path = volume.buckets := by
    simp only [Store.rename, if_true]
  rw [names, buckets, update_idem]
  refine ⟨kept.owner, kept.known, ?_, kept.sized⟩
  intro other found owned
  have before := kept.good other found owned
  refine ⟨before.coherent, ?_, before.uniform⟩
  intro b seq entry
  by_cases same : other = path
  · subst same
    simp only [Volume.session, update_self] at entry
    cases entry
  · simp only [Volume.session, update_of_ne same] at entry
    exact before.fresh b seq entry

end Rename

/-! ## Runs -/

/-- A write whose digests come from the handle's own file is `WriteAt`. -/
theorem writeOpen_eq [DecidableEq Hash] {handle : Nat} {path : Path} {inode : Nat}
    (own : volume.modes handle = .writeOnly →
      mount.readsBack off data.len (fileWriteAt (volume.tree.content inode) off data).len →
      (volume.clones handle).readOnly (volume.tree.names path) readable = .opened inode) :
    ∃ clones, mount.writeOpen off data mtimeNs volume handle readable path inode =
      { volume.put path inode (mount.writeAt (volume.session path inode) off data mtimeNs) with
        clones } := by
  simp only [writeOpen]
  split_ifs with back
  · refine ⟨update volume.clones handle (.opened inode), ?_⟩
    rw [own back.1 back.2, Clone.inode, map_some, update_self]
    rfl
  · exact ⟨_, rfl⟩

/-- One request keeps every handle on its own file. -/
theorem nameStep_kept [Inhabited Hash] [DecidableEq Hash] (lawful : mount.Lawful view)
    {next : Volume Path Entry}
    (kept : mount.Kept view volume) (apart : mount.Apart view volume request)
    (taken : mount.nameStep volume request = some next) : mount.Kept view next := by
  cases request with
  | walk handle path | close handle =>
    simp only [nameStep, ite_none_left_eq_some, some.injEq] at taken
    obtain ⟨_, rfl⟩ := taken
    apply kept.setHandle
    intro other inode same
    cases same
  | openFile handle mtimeNs mode truncates =>
    simp only [nameStep, bind_eq_some_iff, ite_none_left_eq_some, map_eq_some_iff] at taken
    obtain ⟨⟨path, inode⟩, walked, unopened, found, named, rfl⟩ := taken
    rw [not_isSome_iff_eq_none] at unopened
    simp only at unopened
    subst unopened
    obtain ⟨_, cut⟩ := apart path found walked named
    have good := openFile_good_opened lawful (kept.good path found (.inl named))
      fun truncated => (cut truncated).2
    refine (kept.openFile lawful _ named good rfl ?_).setMode handle mode
    cases truncates with
    | false => exact .inl rfl
    | true => exact .inr (cut rfl).1
  | create handle path mode =>
    simp only [nameStep, ite_none_left_eq_some, some.injEq] at taken
    obtain ⟨_, rfl⟩ := taken
    exact (kept.create lawful apart).setMode handle mode
  | unlinkAt path =>
    simp only [nameStep, ite_none_left_eq_some, some.injEq] at taken
    obtain ⟨_, rfl⟩ := taken
    exact kept.unlink lawful path
  | renameAt oldPath newPath =>
    simp only [nameStep, ite_none_left_eq_some, some.injEq] at taken
    obtain ⟨_, rfl⟩ := taken
    by_cases same : oldPath = newPath
    · subst same
      exact kept.rename_self oldPath
    · obtain ⟨unopened, replaced⟩ := apart same
      exact kept.rename lawful same unopened replaced
  | readAt handle off length =>
    simp only [nameStep, Volume.withOpen, ite_none_left_eq_some, bind_eq_some_iff,
      map_eq_some_iff] at taken
    obtain ⟨_, ⟨path, _⟩, opened, inode, rfl, rfl⟩ := taken
    have owned : volume.Owns path inode := .inr ⟨handle, opened⟩
    have sized := kept.sized handle path inode opened
    obtain ⟨good, refills, _⟩ := readAt_good lawful (kept.good path inode owned) sized
      (apart path inode opened).reach_lt
    apply kept.put lawful owned good
    · intro _
      rw [refills.size, refills.file]
      exact sized
    · exact .inl refills.file
  | writeAt handle off data mtimeNs readable =>
    simp only [nameStep, Volume.withOpen, ite_none_left_eq_some, bind_eq_some_iff,
      map_eq_some_iff] at taken
    obtain ⟨_, ⟨path, _⟩, opened, inode, rfl, rfl⟩ := taken
    have owned : volume.Owns path inode := .inr ⟨handle, opened⟩
    obtain ⟨_, alone, allowed, own⟩ := apart path inode opened
    obtain ⟨good, _, size⟩ := writeAt_good lawful
      (kept.good path inode owned) allowed.fits allowed.ready allowed.safe mtimeNs
    have put := kept.put lawful owned good (fun _ => size) (.inr alone)
    obtain ⟨clones, same⟩ := writeOpen_eq own
    rw [same]
    exact ⟨put.owner, put.known, put.good, put.sized⟩

end Keeps

/-- After any run of allowed requests, an allowed read on a handle that is open for
reading delivers the bytes of the file it was opened on. -/
def Mount.HandlesRead {Hash Entry : Type} [Inhabited Hash]
    [DecidableEq Hash] (Path : Type) [DecidableEq Path] (mount : Mount Hash Entry)
    (allowed : Volume Path Entry → NameRequest Path → Prop) : Prop :=
  ∀ (tree : Tree Path) requests final handle path inode off length,
    Along mount.nameStep allowed (Volume.attached tree) requests →
    run mount.nameStep (Volume.attached tree) requests = some final →
    final.handles handle = some { path, inode := some inode } →
    final.modes handle ≠ .writeOnly → allowed final (.readAt handle off length) →
    (mount.readAt (final.session path inode) off length).2.data =
      fileReadAt (final.tree.content inode) off length

def oneFile : Tree Char :=
  { names := update (fun _ => none) 'a' (some 0)
    content := fun _ => Padded.replicate 10 1
    next := 1
    bounded := by
      intro path inode named
      obtain ⟨_, rfl⟩ | ⟨_, ⟨⟩⟩ := update_eq_some_iff.mp named
      exact Nat.zero_lt_one }

/-- The file is opened, unlinked, and a new one is created under its name. -/
def recreatedRun : List (NameRequest Char) :=
  [.walk 0 'a', .openFile 0 1 .readOnly false, .unlinkAt 'a', .create 1 'a' .readWrite]

/-- The file is written, renamed and unlinked while its handle is open. -/
def renamedHandleRun : List (NameRequest Char) :=
  [.walk 0 'a', .openFile 0 1 .readWrite false, .writeAt 0 5 (Padded.replicate 10 8) 2 true,
    .renameAt 'a' 'b', .unlinkAt 'b']

end Cornus.Wire
