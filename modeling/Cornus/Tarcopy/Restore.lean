import Cornus.Tarcopy.Walk

/-!
# Extraction of an object to a free name

An entry whose directory is there and whose name is free is put in its place:
a directory with all its attributes but the time, a link with the time of the
extraction, and a file without the set-id bits that the change of its owner
takes from it.
-/

namespace Cornus.Tarcopy

open Lib Function List Option World Tree

variable (world next : World) (dir : Path) (base : String) (node : Node)

/-- Only one object is new; the time of the directory it lies in may change. -/
structure Extends : Prop where
  tree : next.tree = (dir ++ [base], node) :: world.tree
  now : next.now = world.now
  nextInode : world.nextInode ≤ next.nextInode
  content : ∀ inode, inode < world.nextInode → next.content inode = world.content inode
  fileAttr : ∀ inode, inode < world.nextInode → next.fileAttr inode = world.fileAttr inode
  attr : ∀ path, path ≠ dir ++ [base] → path ≠ dir → next.attr path = world.attr path
  parent : ∃ mtime, next.attr dir = { world.attr dir with mtime }

/-- The new object with its attributes and, for a file, its content; the inode
of a file is new. -/
structure Stands (given : Attr) (data : String) : Prop
    extends Extends world next dir base node where
  attrAt : next.attrAt (dir ++ [base]) = given
  inode : ∀ inode, node = .file inode → world.nextInode ≤ inode ∧
    inode < next.nextInode ∧ next.content inode = data

/-- An object of the archive as the extraction has put it, up to the time of a
directory. -/
def Held (path : Path) : Shown → Prop
  | .dir attr =>
    world.tree.lookup path = some .dir ∧ ∃ mtime, world.attr path = { attr with mtime }
  | .file content attr =>
    ∃ inode, inode < world.nextInode ∧
      world.tree.lookup path = some (.file inode) ∧
      world.content inode = content ∧
      world.fileAttr inode = { attr with mode := attr.mode.afterChown }
  | .link text attr =>
    world.tree.lookup path = some (.link text) ∧
      world.attr path = { attr with mode := linkMode, mtime := world.now }

section Calls

variable {root : Path} {world next : World} {dir : Path}
  {base : String} {node : Node} {given : Attr} {data : String}

theorem Extends.lookup (grown : Extends world next dir base node) (path : Path) :
    next.tree.lookup path = if path = dir ++ [base] then some node else world.tree.lookup path := by
  rw [grown.tree, lookup_cons]
  simp only [eq_comm]

theorem Extends.lookup_self (grown : Extends world next dir base node) :
    next.tree.lookup (dir ++ [base]) = some node := by
  rw [grown.lookup, if_pos rfl]

theorem RealDir.extends (real : RealDir root world.tree other)
    (grown : Extends world next dir base node)
    (absent : world.tree.lookup (dir ++ [base]) = none) : RealDir root next.tree other := by
  apply real.of_lookup
  intro chain _ here
  rw [grown.lookup, if_neg, here]
  intro same
  rw [same, absent] at here
  cases here

variable (real : RealDir root world.tree dir) (plain : PlainName base)
  (absent : world.tree.lookup (dir ++ [base]) = none)

include real plain in
theorem RealDir.plain_names : ∀ name ∈ dir ++ [base], PlainName name := by
  exact forall_mem_append.mpr ⟨real.plain, forall_mem_singleton.mpr plain⟩

include real plain in
theorem RealDir.resolve_name (present : world.tree.lookup (dir ++ [base]) = some node)
    (last : follow = true → ∀ text, node ≠ .link text) :
    world.resolve linkSteps follow (dir ++ [base]) = .found (dir ++ [base]) := by
  apply resolve_present (by simp) (real.plain_names plain) _ present last (by omega)
  intro chain chained some_ short
  exact real.dirs chain (proper_chain chained short) some_

include real plain absent in
theorem RealDir.resolve_free (follow : Bool) :
    world.resolve linkSteps follow (dir ++ [base]) = .vacant (dir ++ [base]) := by
  apply resolve_absent (by simp) (real.plain_names plain) _ absent (by omega)
  intro chain chained some_ short
  exact real.dirs chain (proper_chain chained short) some_

include real in
theorem mkdirAll_real : world.mkdirAll linkSteps dir = .ok world := by
  have walked : ∀ (mode : Mode) (done rest : List String), done ++ rest = dir →
      mkdirAllFrom linkSteps mode world done rest = .ok world := by
    intro mode done rest whole
    induction rest generalizing done with
    | nil => rfl
    | cons name rest ih =>
      have longer : done ++ [name] ++ rest = dir := by simpa using whole
      have chained : done ++ [name] <+: dir := ⟨rest, longer⟩
      have here := real.dirs _ chained (by simp)
      have reached : world.resolve linkSteps true (done ++ [name]) = .found (done ++ [name]) :=
        resolve_present (by simp) (fun other mem => real.plain other (chained.subset mem))
          (fun chain inside some_ _ =>
            real.dirs chain (inside.trans chained) some_)
          here (by simp) (by omega)
      rw [mkdirAllFrom, reached]
      simp only [isDir, here, if_true]
      exact ih _ longer
  exact walked _ [] dir rfl

theorem setAttr_path (notFile : ∀ inode, world.tree.lookup path ≠ some (.file inode))
    (change : Attr → Attr) : world.setAttr path change = { world with
        attr := update world.attr path (change (world.attr path)) } := by
  rw [setAttr]
  split
  · rename_i inode here
    exact absurd here (notFile inode)
  · rfl

theorem attrAt_unfiled (notFile : ∀ inode, world.tree.lookup path ≠ some (.file inode)) :
    world.attrAt path = world.attr path := by
  rw [attrAt]
  split
  · rename_i inode here
    exact absurd here (notFile inode)
  · rfl

theorem enter_eq (notFile : ∀ inode, world.tree.lookup dir ≠ some (.file inode)) :
    world.enter (dir ++ [base]) node = { world with
        tree := (dir ++ [base], node) :: world.tree
        attr := update world.attr dir { world.attr dir with mtime := world.now }
        touched := world.touched ++ [dir ++ [base]] } := by
  rw [enter, stamp, setAttr_path, dropLast_concat]
  · rfl
  · rw [dropLast_concat]
    simp only [lookup_cons]
    rw [if_neg (by simp)]
    exact notFile

section

variable (stands : Stands world next dir base node given data)
include stands

theorem Stands.attrAt_path (notFile : ∀ inode, node ≠ .file inode) :
    next.attr (dir ++ [base]) = given := by
  rw [← stands.attrAt, attrAt_unfiled]
  intro inode
  rw [stands.lookup_self]
  exact fun same => notFile inode (some.inj same)

theorem Stands.setAttr (change : Attr → Attr) :
    Stands world ((next.setAttr (dir ++ [base]) change).touch (dir ++ [base]))
      dir base node (change given) data := by
  have here := stands.lookup_self
  have value := stands.attrAt
  simp only [World.attrAt, here] at value
  have elsewhere : (∀ inode, node ≠ .file inode) → next.attr (dir ++ [base]) =
      given → Stands world ((next.setAttr (dir ++ [base]) change).touch (dir ++ [base]))
        dir base node (change given) data := by
    intro notFile attr
    have unfiled : ∀ inode, next.tree.lookup (dir ++ [base]) ≠ some (.file inode) := by
      rw [here]
      exact fun inode same => notFile inode (some.inj same)
    have ne : dir ≠ dir ++ [base] := by simp
    rw [setAttr_path unfiled]
    refine ⟨{ stands with attr := ?_, parent := ?_ }, ?_, ?_⟩
    · intro path other beside
      simp only [touch, update_of_ne other]
      exact stands.attr path other beside
    · simp only [touch, update_of_ne ne]
      exact stands.parent
    · rw [attrAt_unfiled (by exact unfiled)]
      simp only [touch, update_self, attr]
    · intro inode same
      exact absurd same (notFile inode)
  cases node with
  | dir | link text => exact elsewhere (by simp) value
  | file inode =>
    obtain ⟨fresh, below, written⟩ := stands.inode inode rfl
    simp only [setAttr, here]
    refine ⟨{ stands with fileAttr := ?_ }, ?_, ?_⟩
    · intro other older
      have ne : other ≠ inode := by omega
      simp only [World.touch, update_of_ne ne]
      exact stands.fileAttr other older
    · simp only [World.touch, World.attrAt, here, update_self, value]
    · intro other same
      cases same
      exact ⟨fresh, below, written⟩

include real plain absent

theorem Stands.changeAttr
    (last : follow = true → ∀ text, node ≠ .link text) (change : Option Node → Attr → Attr) :
    ∃ changed, next.changeAttr linkSteps follow (dir ++ [base]) change = .ok changed ∧
      Stands world changed dir base node (change (some node) given) data := by
  have here := stands.lookup_self
  have found : next.resolve linkSteps follow (dir ++ [base]) = .found (dir ++ [base]) :=
    (real.extends stands.toExtends absent).resolve_name plain here last
  refine ⟨_, by rw [World.changeAttr, found], ?_⟩
  rw [here]
  exact stands.setAttr _

theorem Stands.chmod (notLink : ∀ text, node ≠ .link text) (linkSteps : Nat) (mode : Mode) :
    ∃ changed, next.chmod linkSteps (dir ++ [base]) mode = .ok changed ∧
      Stands world changed dir base node { given with mode } data :=
  stands.changeAttr real plain absent (fun _ => notLink) _

theorem Stands.chtimes (notLink : ∀ text, node ≠ .link text) (linkSteps : Nat) (mtime : Int) :
    ∃ changed, next.chtimes linkSteps (dir ++ [base]) mtime = .ok changed ∧
      Stands world changed dir base node { given with mtime } data :=
  stands.changeAttr real plain absent (fun _ => notLink) _

theorem Stands.lchown (linkSteps : Nat) (uid gid : Nat) :
    ∃ changed, next.lchown linkSteps (dir ++ [base]) uid gid = .ok changed ∧
      Stands world changed dir base node
        { given with uid, gid, mode := ownedMode (some node) given.mode } data :=
  have unfollowed : false = true → ∀ text, node ≠ .link text :=
    fun follows => absurd follows Bool.false_ne_true
  stands.changeAttr real plain absent unfollowed _

end

section

variable (notFile : ∀ inode, world.tree.lookup dir ≠ some (.file inode))
include real plain absent notFile

theorem createAt_stands (linkSteps : Nat) (mode : Mode) (node : Node)
    (unfiled : ∀ inode, node ≠ .file inode) :
    ∃ made, world.createAt linkSteps (dir ++ [base]) mode node = .ok made ∧
      Stands world made dir base node (world.newAttr mode) "" := by
  have free : world.resolve linkSteps false (dir ++ [base]) =
      .vacant (dir ++ [base]) := real.resolve_free plain absent false
  have ne : dir ++ [base] ≠ dir := by simp
  refine ⟨_, by rw [createAt, free], ?_⟩
  rw [enter_eq (by exact notFile)]
  refine ⟨⟨rfl, rfl, le_refl _, fun _ _ => rfl, fun _ _ => rfl, ?_, ?_⟩, ?_, ?_⟩
  · intro path other beside
    simp only [update_of_ne beside, update_of_ne other]
  · refine ⟨world.now, ?_⟩
    simp only [update_self, update_of_ne ne.symm]
  · rw [attrAt_unfiled]
    · simp only [update_of_ne ne, update_self]
    · intro inode
      rw [lookup_cons, if_pos rfl]
      exact fun same => unfiled inode (some.inj same)
  · intro inode same
    exact absurd same (unfiled inode)

theorem writeFile_stands (linkSteps : Nat) (mode : Mode) (data : String) :
    ∃ made, world.writeFile linkSteps (dir ++ [base]) mode data = .ok made ∧
      Stands world made dir base (.file world.nextInode) (world.newAttr mode) data := by
  have free : world.resolve linkSteps true (dir ++ [base]) =
      .vacant (dir ++ [base]) := real.resolve_free plain absent true
  refine ⟨_, by rw [writeFile, free], ?_⟩
  rw [enter_eq (by exact notFile)]
  refine ⟨⟨rfl, rfl, Nat.le_succ _, ?_, ?_, ?_, ?_⟩, ?_, ?_⟩
  · intro inode older
    exact update_of_ne (Nat.ne_of_lt older) _ _
  · intro inode older
    exact update_of_ne (Nat.ne_of_lt older) _ _
  · intro path _ beside
    exact update_of_ne beside _ _
  · exact ⟨world.now, update_self _ _ _⟩
  · rw [attrAt, lookup_cons, if_pos rfl]
    exact update_self _ _ _
  · intro inode same
    cases same
    exact ⟨le_refl _, Nat.lt_succ_self _, update_self _ _ _⟩

end

include absent in
theorem Held.extends (held : Held world path shown) (grown : Extends world next dir base node)
    (inDir : path = dir → world.tree.lookup dir = some .dir) : Held next path shown := by
  have kept : ∀ other, world.tree.lookup path = some other →
      path ≠ dir ++ [base] ∧ next.tree.lookup path = some other := by
    intro other here
    have ne : path ≠ dir ++ [base] := by
      intro same
      rw [same, absent] at here
      cases here
    exact ⟨ne, by rw [grown.lookup, if_neg ne, here]⟩
  cases shown with
  | dir attr =>
    obtain ⟨here, mtime, value⟩ := held
    obtain ⟨ne, after⟩ := kept _ here
    refine ⟨after, ?_⟩
    by_cases above : path = dir
    · obtain ⟨stamped, parent⟩ := grown.parent
      refine ⟨stamped, ?_⟩
      rw [above, parent, ← above, value]
    · exact ⟨mtime, by rw [grown.attr path ne above, value]⟩
  | file content attr =>
    obtain ⟨inode, older, here, written, value⟩ := held
    refine ⟨inode, lt_of_lt_of_le older grown.nextInode, (kept _ here).2, ?_, ?_⟩
    · rw [grown.content inode older, written]
    · rw [grown.fileAttr inode older, value]
  | link text attr =>
    obtain ⟨here, value⟩ := held
    obtain ⟨ne, after⟩ := kept _ here
    refine ⟨after, ?_⟩
    rw [grown.now, ← value]
    apply grown.attr path ne
    intro above
    have isDir := inDir above
    rw [← above, here] at isDir
    cases isDir

end Calls

variable {root : Path} {linkSteps : Nat} {rootPath : RootPath} {world : World}
  {dir cdest : Path} {base : String} {opts : UnpackOptions}

theorem ownEntry_known (owned : opts.copyUidGid = true) (known : entry.kind ≠ .other) :
    ownEntry linkSteps opts world target entry =
      world.lchown linkSteps target entry.attr.uid entry.attr.gid := by
  rw [ownEntry]
  split
  · contradiction
  · rw [if_pos owned]

variable (real : RealDir root world.tree dir) (plain : PlainName base)
  (absent : world.tree.lookup (dir ++ [base]) = none)
  (notFile : ∀ inode, world.tree.lookup dir ≠ some (.file inode))
  (owned : opts.copyUidGid = true) (name : String) (shown : Shown)
include real plain absent notFile owned

theorem place_held : ∃ placed next node,
      placeEntry linkSteps rootPath cdest world (dir ++ [base]) false
          (packObject name shown) = .ok placed ∧
        ownEntry linkSteps opts placed (dir ++ [base]) (packObject name shown) = .ok next ∧
        Extends world next dir base node ∧ Held next (dir ++ [base]) shown := by
  have own : ∀ placed, ownEntry linkSteps opts placed (dir ++ [base]) (packObject name shown) =
      placed.lchown linkSteps (dir ++ [base])
        (packObject name shown).attr.uid (packObject name shown).attr.gid := by
    intro placed
    apply ownEntry_known owned
    cases shown <;> simp [packObject, writeHeader]
  cases shown with
  | dir attr =>
    obtain ⟨made, created, first⟩ := createAt_stands real plain absent notFile
      linkSteps attr.mode .dir (by simp)
    obtain ⟨changed, modes, second⟩ := first.chmod real plain absent (by simp) linkSteps attr.mode
    obtain ⟨next, chowned, third⟩ := second.lchown real plain absent linkSteps attr.uid attr.gid
    refine ⟨changed, next, .dir, (bind_of_ok created).trans modes, ?_,
      third.toExtends, third.lookup_self, world.now, ?_⟩
    · exact (own _).trans chowned
    · exact third.attrAt_path (by simp)
  | file content attr =>
    obtain ⟨made, written, first⟩ := writeFile_stands real plain absent notFile
      linkSteps attr.mode content
    obtain ⟨changed, modes, second⟩ := first.chmod real plain absent (by simp) linkSteps attr.mode
    obtain ⟨timed, times, third⟩ := second.chtimes real plain absent (by simp) linkSteps attr.mtime
    obtain ⟨next, chowned, fourth⟩ := third.lchown real plain absent linkSteps attr.uid attr.gid
    obtain ⟨-, below, held⟩ := fourth.inode _ rfl
    have value := fourth.attrAt
    rw [attrAt, fourth.lookup_self] at value
    refine ⟨timed, next, .file world.nextInode, ?_, (own _).trans chowned,
      fourth.toExtends, world.nextInode, below, fourth.lookup_self, held, value⟩
    exact (bind_of_ok written).trans ((bind_of_ok modes).trans times)
  | link text attr =>
    obtain ⟨made, created, first⟩ := createAt_stands real plain absent notFile
      linkSteps linkMode (.link text) (by simp)
    obtain ⟨next, chowned, second⟩ := first.lchown real plain absent linkSteps attr.uid attr.gid
    refine ⟨made, next, .link text, created, (own _).trans chowned,
      second.toExtends, second.lookup_self, ?_⟩
    rw [second.now]
    exact second.attrAt_path (by simp)

/-- The directory whose time an entry leaves to be restored. -/
def leftTime (target : Path) : Shown → List (Path × Int)
  | .dir attr => [(target, attr.mtime)]
  | _ => []

theorem extractAt_held (dirs : List (Path × Int)) : ∃ next node,
      extractAt linkSteps rootPath cdest opts { world, dirs } dir base (packObject name shown) =
        .ok { world := next, dirs := dirs ++ leftTime (dir ++ [base]) shown } ∧
        Extends world next dir base node ∧ Held next (dir ++ [base]) shown := by
  obtain ⟨placed, next, node, placing, owning, grown, held⟩ :=
    place_held real plain absent notFile owned name shown
  refine ⟨next, node, ?_, grown, held⟩
  have free : world.resolve linkSteps false (dir ++ [base]) = .vacant (dir ++ [base]) :=
    real.resolve_free plain absent false
  rw [extractAt, lstat, free]
  apply (bind_of_ok (mkdirAll_real real)).trans
  apply (bind_of_ok placing).trans
  apply (bind_of_ok owning).trans
  cases shown with
  | dir attr => rfl
  | file content attr | link text attr =>
    simp only [leftTime, append_nil]
    rfl

end Cornus.Tarcopy
