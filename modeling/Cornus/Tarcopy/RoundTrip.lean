import Cornus.Tarcopy.Extraction
import Cornus.Tarcopy.Restore

/-!
# What is packed is unpacked

The listing of an object is extracted entry by entry into an empty directory,
and at the end the times of the directories come back.  What stands there then
is the object as it was, but for three things: the set-id bits of files, which the
change of the owner clears, the times of links, and that an archive of the root is
refused.
-/

namespace Cornus.Tarcopy

open Function Prod World

open Lib List Option

def Shown.restored (now : Int) : Shown → Shown
  | .dir attr => .dir attr
  | .file content attr =>
    .file content { attr with mode := attr.mode.afterChown }
  | .link text attr =>
    .link text { attr with mode := linkMode, mtime := now }

/-- An empty directory, found by a path that does not lead through itself. -/
structure Destination (root : Path) (rootPath : RootPath) (world : World)
    (cdest dest : Path) : Prop where
  real : RealDir root world.tree dest
  empty : ∀ names, names ≠ [] → world.tree.lookup (dest ++ names) = none
  settled : ∀ tree : Tree, (∀ path, (dest <+: path → path = dest) →
      tree.lookup path = world.tree.lookup path) → rootPath tree cdest = some dest
  top : world.tree.lookup [] = none

/-- The state of the extraction after some objects of a listing. -/
structure Restoring (root : Path) (start : World) (dest : Path)
    (done : List (Path × Shown)) (progress : Progress) : Prop where
  real : RealDir root progress.world.tree dest
  dirs : ∀ rel attr, (rel, Shown.dir attr) ∈ done → RealDir root progress.world.tree (dest ++ rel)
  outside : ∀ path, (dest <+: path → path = dest) →
    progress.world.tree.lookup path = start.tree.lookup path
  absent : ∀ rel, rel ≠ [] → (∀ item ∈ done, item.1 ≠ rel) →
    progress.world.tree.lookup (dest ++ rel) = none
  held : ∀ item ∈ done, Held progress.world (dest ++ item.1) item.2
  some_ : ∀ item ∈ done, item.1 ≠ []
  times : progress.dirs = done.flatMap fun item => leftTime (dest ++ item.1) item.2
  now : progress.world.now = start.now

section Entry

variable {root : Path} {linkSteps : Nat} {rootPath : RootPath} {start : World} {cdest dest : Path}
  {rel front : List String}

theorem cleanEntryName_packItem (names : ∀ name ∈ rel, FileName name) (some_ : rel ≠ [])
    (shown : Shown) : cleanEntryName (packItem (rel, shown)).name = some rel := by
  have plain : ∀ name ∈ rel, PlainName name := fun name mem => (names name mem).1
  have free : ∀ name ∈ rel, '/' ∉ name.toList := fun name mem => (names name mem).2
  have cleaned := cleanPath_intercalate false plain free some_
  have inside : rel.head? ≠ some ".." := by
    intro up
    exact (plain ".." (mem_of_head? up)).2.2 rfl
  have read : ∀ tail, cleanPath false ("/".intercalate rel ++ tail) = rel →
      cleanEntryName ("/".intercalate rel ++ tail) = some rel := by
    intro tail whole
    rw [cleanEntryName, if_neg (head_intercalate plain free tail some_)]
    simp only [whole, if_neg inside]
  have short := read "" (by rw [String.append_empty]; exact cleaned.1)
  rw [String.append_empty] at short
  have headed : ∀ kind attr, cleanEntryName
      (writeHeader ("/".intercalate rel) kind attr).name = some rel := by
    intro kind attr
    simp only [writeHeader]
    split
    · exact read "/" cleaned.2
    · exact short
  cases shown <;> exact headed _ _

theorem rootPath_below (walks : Walks rootPath) {tree : Tree}
    (given : rootPath tree cdest = some dest) (inside : root <+: dest)
    (real : RealDir root tree (dest ++ rel)) :
    rootPath tree (cdest ++ rel) = some (dest ++ rel) := by
  induction rel using List.reverseRecOn with
  | nil =>
    rw [append_nil, append_nil]
    exact given
  | append_singleton rel name ih =>
    have chained : dest ++ rel <+: dest ++ (rel ++ [name]) := ⟨[name], by simp⟩
    have plain : PlainName name := real.plain name (by simp)
    have here := real.dirs _ (prefix_refl _) (by simp)
    rw [← append_assoc] at here ⊢
    rw [← append_assoc]
    apply walks _ _ _ _ (ih _) plain here
    exact real.shorter (inside.trans (prefix_append _ _)) chained

section

variable {done : List (Path × Shown)} {progress : Progress} {base : String}
  (restoring : Restoring root start dest done progress)
  (above : front = [] ∨ ∃ attr, (front, Shown.dir attr) ∈ done)
include restoring above

theorem Restoring.parent :
    RealDir root progress.world.tree (dest ++ front) := by
  rcases above with top | ⟨attr, mem⟩
  · rw [top, append_nil]
    exact restoring.real
  · exact restoring.dirs front attr mem

variable (fresh : ∀ earlier ∈ done, earlier.1 ≠ front ++ [base])
include fresh

theorem Restoring.snoc {next : World} (plain : PlainName base)
    (grown : Extends progress.world next (dest ++ front) base node)
    (held : Held next (dest ++ front ++ [base]) shown) :
    Restoring root start dest (done ++ [(front ++ [base], shown)])
      { world := next, dirs := progress.dirs ++ leftTime (dest ++ front ++ [base]) shown } := by
  have absent := restoring.absent (front ++ [base]) (by simp) fresh
  rw [← append_assoc] at absent
  have parent := restoring.parent above
  constructor
  · exact restoring.real.extends grown absent
  · intro rel attr mem
    rcases mem_append.mp mem with old | new
    · exact (restoring.dirs rel attr old).extends grown absent
    cases mem_singleton.mp new
    rw [← append_assoc]
    exact (parent.extends grown absent).snoc plain held.1
  · intro path apart
    rw [grown.lookup, if_neg, restoring.outside path apart]
    intro same
    have whole := apart ⟨front ++ [base], by rw [same, append_assoc]⟩
    simp [same] at whole
  · intro rel some_ unmet
    rw [grown.lookup, if_neg]
    · apply restoring.absent rel some_
      intro item mem
      exact unmet item (mem_append_left _ mem)
    · intro same
      rw [append_assoc] at same
      exact unmet _ (mem_append_right _ mem_cons_self) (append_cancel_left same).symm
  · intro item mem
    rcases mem_append.mp mem with old | new
    · apply (restoring.held item old).extends absent grown
      intro same
      apply parent.dirs _ (prefix_refl _)
      rw [← same]
      exact append_ne_nil_of_right_ne_nil _ (restoring.some_ item old)
    · rw [mem_singleton.mp new, ← append_assoc]
      exact held
  · exact forall_mem_append.mpr ⟨restoring.some_, forall_mem_singleton.mpr (by simp)⟩
  · rw [restoring.times, flatMap_append, flatMap_singleton, append_assoc]
  · rw [grown.now, restoring.now]

/-- One entry restores one more object. -/
theorem Restoring.step (walks : Walks rootPath)
    (destination : Destination root rootPath start cdest dest) (owned : opts.copyUidGid = true)
    (names : ∀ name ∈ front ++ [base], FileName name) (linkSteps : Nat) (shown : Shown) :
    ∃ next, unpackEntry linkSteps rootPath cdest opts progress
        (packItem (front ++ [base], shown)) = .ok next ∧
      Restoring root start dest (done ++ [(front ++ [base], shown)]) next := by
  have parent := restoring.parent above
  have plain : PlainName base := (names base (by simp)).1
  have given := rootPath_below walks
    (destination.settled _ restoring.outside) destination.real.inside parent
  have absent := restoring.absent (front ++ [base]) (by simp) fresh
  rw [← append_assoc] at absent
  have notFile : ∀ inode, progress.world.tree.lookup (dest ++ front) ≠ some (.file inode) := by
    intro inode
    by_cases top : dest ++ front = []
    · have here := (append_eq_nil_iff.mp top).1
      rw [top, restoring.outside [] fun _ => here.symm, destination.top]
      simp
    · rw [parent.dirs _ (prefix_refl _) top]
      simp
  obtain ⟨next, node, extracted, grown, held⟩ :=
    @extractAt_held root linkSteps rootPath _ (dest ++ front) cdest base opts parent plain absent
      notFile owned ("/".intercalate (front ++ [base])) shown progress.dirs
  have placed : entryPlace rootPath progress.world.tree
      (cdest ++ (front ++ [base])) = some (dest ++ front, base) := by
    rw [← append_assoc]
    simp [entryPlace, given]
  refine ⟨_, ?_, restoring.snoc above fresh plain grown held⟩
  rw [unpackEntry, cleanEntryName_packItem names (by simp)]
  simp only [placed]
  rw [if_neg (by simp)]
  exact extracted

end

theorem Restoring.run (walks : Walks rootPath)
    (destination : Destination root rootPath start cdest dest)
    (owned : opts.copyUidGid = true) {done items : List (Path × Shown)}
    {progress : Progress} (restoring : Restoring root start dest done progress)
    (names : ∀ item ∈ items, ∀ name ∈ item.1, FileName name) (ordered : Ordered done items) :
    ∃ next, unpackEntries linkSteps rootPath cdest opts true progress
        (items.map packItem) = .ok next ∧ Restoring root start dest (done ++ items) next := by
  induction items generalizing done progress with
  | nil =>
    rw [append_nil]
    exact ⟨progress, rfl, restoring⟩
  | cons item items ih =>
    obtain ⟨fresh, some_, above, later⟩ := ordered
    obtain ⟨rel, shown⟩ := item
    have whole := dropLast_append_getLast some_
    simp only at fresh above whole
    have here := names _ mem_cons_self
    rw [← whole] at fresh here
    obtain ⟨middle, taken, kept⟩ :=
      restoring.step above fresh walks destination owned here linkSteps shown
    rw [whole] at taken kept
    obtain ⟨next, rest, final⟩ := ih kept
      (fun other mem => names other (mem_cons_of_mem _ mem)) later
    refine ⟨next, ?_, by simpa using final⟩
    rw [map_cons, unpackEntries]
    exact (bind_of_ok taken).trans rest

end Entry

section Times

variable {root : Path}

theorem restoreTimes_ok {dirs : List (Path × Int)}
    (real : ∀ dir ∈ dirs, RealDir root world.tree dir.1 ∧ dir.1 ≠ [])
    {times : Path → Int} (agree : ∀ dir ∈ dirs, dir.2 = times dir.1) :
    ∃ next, restoreTimes linkSteps world dirs = .ok next ∧
      next.tree = world.tree ∧ next.content = world.content ∧ next.fileAttr = world.fileAttr ∧
      ∀ path, next.attr path = if path ∈ dirs.map fst then
          { world.attr path with mtime := times path }
        else world.attr path := by
  induction dirs generalizing world with
  | nil => exact ⟨world, rfl, rfl, rfl, rfl, fun path => rfl⟩
  | cons dir dirs ih =>
    obtain ⟨dir, mtime⟩ := dir
    obtain ⟨here, some_⟩ := real _ mem_cons_self
    have same : mtime = times dir := agree _ mem_cons_self
    have isDir := here.dirs _ (prefix_refl _) some_
    have reached : world.resolve linkSteps true dir = .found dir := here.resolve true
    let timed : World :=
      { world with
        attr := update world.attr dir { world.attr dir with mtime }
        touched := world.touched ++ [dir] }
    have changed : world.chtimes linkSteps dir mtime = .ok timed := by
      rw [chtimes, changeAttr, reached]
      simp only
      rw [setAttr_path]
      · rfl
      · rw [isDir]
        simp
    obtain ⟨next, rest, tree, content, fileAttr, attr⟩ := @ih timed
      (fun other mem => real other (mem_cons_of_mem _ mem))
      fun other mem => agree other (mem_cons_of_mem _ mem)
    refine ⟨next, (bind_of_ok changed).trans rest, tree, content, fileAttr, ?_⟩
    intro path
    rw [attr, map_cons]
    by_cases atDir : path = dir
    · subst atDir
      simp only [timed, update_self, mem_cons, true_or, if_true, same]
      split <;> rfl
    · simp only [timed, update_of_ne atDir, mem_cons, atDir, false_or]

variable {dir : Path × Int} {dest : Path}

theorem mem_leftTime :
    dir ∈ leftTime target shown ↔ ∃ attr, shown = .dir attr ∧ dir = (target, attr.mtime) := by
  cases shown <;> simp [leftTime]

theorem Restoring.mem_dirs (restoring : Restoring root start dest done progress) :
    dir ∈ progress.dirs ↔ ∃ rel attr, (rel, Shown.dir attr) ∈ done ∧
      dir = (dest ++ rel, attr.mtime) := by
  rw [restoring.times, mem_flatMap]
  constructor
  · intro found
    obtain ⟨⟨rel, shown⟩, mem, left⟩ := found
    obtain ⟨attr, isDir, same⟩ := mem_leftTime.mp left
    simp only at isDir same
    subst isDir
    exact ⟨rel, attr, mem, same⟩
  · intro found
    obtain ⟨rel, attr, mem, same⟩ := found
    exact ⟨_, mem, mem_leftTime.mpr ⟨attr, rfl, same⟩⟩

theorem Restoring.finish (restoring : Restoring root start dest done progress) (linkSteps : Nat)
    {times : Path → Int}
    (agree : ∀ rel attr, (rel, Shown.dir attr) ∈ done → attr.mtime = times (dest ++ rel)) :
    ∃ final, restoreTimes linkSteps progress.world progress.dirs = .ok final ∧
      (∀ item ∈ done, final.shownAt (dest ++ item.1) = some (item.2.restored start.now)) ∧
      ∀ rel, rel ≠ [] → (∀ item ∈ done, item.1 ≠ rel) → final.shownAt (dest ++ rel) = none := by
  have real : ∀ dir ∈ progress.dirs, RealDir root progress.world.tree dir.1 ∧ dir.1 ≠ [] := by
    intro dir mem
    obtain ⟨rel, attr, listed, same⟩ := restoring.mem_dirs.mp mem
    rw [same]
    exact ⟨restoring.dirs rel attr listed,
      append_ne_nil_of_right_ne_nil _ (restoring.some_ _ listed)⟩
  have timed : ∀ dir ∈ progress.dirs, dir.2 = times dir.1 := by
    intro dir mem
    obtain ⟨rel, attr, listed, same⟩ := restoring.mem_dirs.mp mem
    rw [same]
    exact agree rel attr listed
  obtain ⟨final, done_, tree, content, fileAttr, attr⟩ :=
    @restoreTimes_ok root linkSteps _ _ real _ timed
  refine ⟨final, done_, ?_, ?_⟩
  · intro item mem
    obtain ⟨rel, shown⟩ := item
    have held := restoring.held _ mem
    cases shown with
    | dir given =>
      obtain ⟨here, mtime, value⟩ := held
      have listed : dest ++ rel ∈ progress.dirs.map fst :=
        mem_map.mpr ⟨_, restoring.mem_dirs.mpr ⟨rel, given, mem, rfl⟩, rfl⟩
      have whole : final.attr (dest ++ rel) = given := by
        rw [attr, if_pos listed, value, ← agree rel given mem]
      simp only [shownAt, tree, here, whole, Shown.restored]
    | file data given =>
      obtain ⟨inode, -, here, written, value⟩ := held
      simp only [shownAt, tree, here, content, written, fileAttr, value, Shown.restored]
    | link text given =>
      obtain ⟨here, value⟩ := held
      have unlisted : dest ++ rel ∉ progress.dirs.map fst := by
        intro listed
        obtain ⟨dir, inside, same⟩ := mem_map.mp listed
        obtain ⟨isReal, some_⟩ := real dir inside
        have isDir := isReal.dirs _ (prefix_refl _) some_
        rw [same, here] at isDir
        cases isDir
      have whole := attr (dest ++ rel)
      rw [if_neg unlisted, value, restoring.now] at whole
      simp only [shownAt, tree, here, whole, Shown.restored]
  · intro rel some_ unmet
    rw [shownAt_eq_none, tree]
    exact restoring.absent rel some_ unmet

end Times

/-! ## The whole way -/

/-- What is to stand at a path below the destination: an object lies there under
its own name, and for the root its children. -/
def expectedAt (source : World) (cpath host : Path) : List String → Option Shown
  | [] => none
  | name :: names =>
    match cpath.getLast? with
    | none => source.shownAt (host ++ name :: names)
    | some base =>
      if name = base then source.shownAt (host ++ names) else none

/-- Packing and unpacking succeed, and reproduce the object below the
destination and nothing else. -/
def Reproduces (linkSteps : Nat) (packRoot unpackRoot : RootPath)
    (source target : World) (path dest : String) (opts : UnpackOptions)
    (host destHost : Path) : Prop :=
  ∃ entries final, pack linkSteps packRoot source path = .ok entries ∧
    unpack linkSteps unpackRoot target dest opts entries true = .ok final ∧
    ∀ rel, rel ≠ [] → final.shownAt (destHost ++ rel) =
      expectedAt source (cleanPath true path) host rel

/-- The objects that come back as they were: not a file with setuid, or with setgid
and the group's execution bit, and not a link from another time. -/
def Shown.ComesBack (now : Int) : Shown → Prop
  | .dir _ => True
  | .file _ attr =>
    attr.mode.setuid = false ∧ ¬(attr.mode.setgid = true ∧ attr.mode.groupExecutable = true)
  | .link _ attr => attr.mtime = now

instance (now : Int) (shown : Shown) : Decidable (shown.ComesBack now) :=
  match shown with
  | .dir _ => isTrue trivial
  | .file _ attr =>
    inferInstanceAs (Decidable (attr.mode.setuid = false ∧
      ¬(attr.mode.setgid = true ∧ attr.mode.groupExecutable = true)))
  | .link _ attr => inferInstanceAs (Decidable (attr.mtime = now))

section Whole

variable {root : Path} {linkSteps : Nat} {rootPath : RootPath} {source target : World}
  {dest : String} {destHost : Path} {opts : UnpackOptions} {hostDir : Path} {base : String}
  {shown : Shown}

theorem mem_listing_iff (proper : Proper source.tree) {rel : List String} :
    (rel, shown) ∈ listing source hostDir base ↔
      expectedAt source [base] (hostDir ++ [base]) rel = some shown := by
  rw [mem_listing proper]
  cases rel with
  | nil => simp [expectedAt]
  | cons name names =>
    simp only [expectedAt, getLast?_singleton, List.cons.injEq, append_assoc, singleton_append]
    by_cases same : name = base
    · simp [same]
    · simp [same]

theorem attr_of_shownAt {world : World} {path : Path} {attr : Attr}
    (here : world.shownAt path = some (.dir attr)) : world.attr path = attr := by
  rw [shownAt] at here
  split at here <;> cases here
  rfl

theorem names_listing (proper : Proper source.tree) (named : Named source.tree) :
    ∀ item ∈ listing source hostDir base, ∀ name ∈ item.1, FileName name := by
  intro item mem name inside
  obtain ⟨names, path, here⟩ := (mem_listing proper).mp mem
  have present : source.tree.lookup (hostDir ++ base :: names) ≠ none := by
    rw [ne_eq, ← shownAt_eq_none, here]
    exact some_ne_none _
  obtain ⟨node, found⟩ := ne_none_iff_exists'.mp present
  apply named _ (Tree.mem_of_lookup found) name
  rw [path] at inside
  exact mem_append_right _ inside

theorem unpack_listing (walks : Walks rootPath)
    (destination : Destination root rootPath target (cleanPath true dest) destHost)
    (owned : opts.copyUidGid = true) (proper : Proper source.tree)
    (named : Named source.tree) (hostDir : Path) (base : String) :
    ∃ final, unpack linkSteps rootPath target dest opts
        ((listing source hostDir base).map packItem) true = .ok final ∧
      ∀ rel, rel ≠ [] → final.shownAt (destHost ++ rel) =
        (expectedAt source [base] (hostDir ++ [base]) rel).map (Shown.restored target.now) := by
  have start : Restoring root target destHost [] { world := target } := by
    refine ⟨destination.real, ?_, fun path _ => rfl, ?_, ?_, ?_, rfl, rfl⟩
    · intro rel attr mem
      cases mem
    · intro rel some_ _
      exact destination.empty rel some_
    · intro item mem
      cases mem
    · intro item mem
      cases mem
  obtain ⟨progress, unpacked, restored⟩ := @Restoring.run root linkSteps rootPath
    target _ destHost opts walks destination owned _ _ _ start
    (names_listing proper named) (ordered_listing hostDir base)
  rw [nil_append] at restored
  let times : Path → Int := fun path =>
    (source.attr (hostDir ++ path.drop destHost.length)).mtime
  have agree : ∀ rel attr, (rel, Shown.dir attr) ∈ listing source hostDir base →
      attr.mtime = times (destHost ++ rel) := by
    intro rel attr listed
    obtain ⟨names, path, here⟩ := (mem_listing proper).mp listed
    rw [← path] at here
    simp only [times, drop_left, attr_of_shownAt here]
  obtain ⟨final, timed, shown, absent⟩ := restored.finish linkSteps agree
  have given := destination.settled target.tree fun path _ => rfl
  have reached : target.resolve linkSteps true destHost = .found destHost :=
    destination.real.resolve true
  have isDir : (destHost = [] || target.tree.isDir destHost) = true := by
    by_cases top : destHost = []
    · simp [top]
    · simp [Tree.isDir, destination.real.dirs _ (prefix_refl _) top]
  refine ⟨final, ?_, ?_⟩
  · simp only [unpack, given, reached]
    rw [if_pos isDir]
    exact (bind_of_ok unpacked).trans timed
  · intro rel some_
    cases expected : expectedAt source [base] (hostDir ++ [base]) rel with
    | some object => exact shown _ ((mem_listing_iff proper).mpr expected)
    | none =>
      apply absent rel some_
      intro item mem same
      obtain ⟨other, object⟩ := item
      simp only at same
      subst same
      rw [(mem_listing_iff proper).mp mem] at expected
      cases expected

/-- An object comes back as it was exactly when its extraction changes
nothing. -/
theorem restored_eq_iff {now : Int}
    (linkMode : ∀ text attr, shown = .link text attr → attr.mode = linkMode) :
    shown.restored now = shown ↔ shown.ComesBack now := by
  cases shown with
  | dir attr => simp [Shown.restored, Shown.ComesBack]
  | file content attr =>
    have kept : attr.mode.afterChown = attr.mode ↔ attr.mode.setuid = false ∧
          ¬(attr.mode.setgid = true ∧ attr.mode.groupExecutable = true) := by
      obtain ⟨⟨perm, setuid, setgid, sticky⟩, uid, gid, mtime⟩ := attr
      cases setuid <;> cases setgid <;> simp [Mode.afterChown, Mode.groupExecutable]
    rw [Shown.ComesBack, ← kept]
    obtain ⟨mode, uid, gid, mtime⟩ := attr
    simp [Shown.restored]
  | link text attr =>
    obtain ⟨mode, uid, gid, mtime⟩ := attr
    have linked := linkMode text _ rfl
    simp only at linked
    simp [Shown.restored, Shown.ComesBack, linked, eq_comm]

theorem root_refused (top : cleanPath true path = [])
    (packed : pack linkSteps packRoot source path = .ok entries) :
    unpack linkSteps rootPath target dest opts entries true ≠ .ok final := by
  have headed : ∃ shown rest, entries = packObject "/" shown :: rest := by
    rw [pack, top] at packed
    split at packed
    · cases packed
    split at packed
    · cases packed
    rename_i shown _
    split at packed
    · obtain ⟨below, -, whole⟩ := exists_of_bind_ok packed
      cases whole
      exact ⟨shown, below, rfl⟩
    · cases packed
      exact ⟨shown, [], rfl⟩
  obtain ⟨shown, rest, whole⟩ := headed
  have named : (packObject "/" shown).name = "/" := by
    cases shown <;> rfl
  have refused : ∀ progress, unpackEntries linkSteps rootPath
      (cleanPath true dest) opts true progress entries = .error progress.world := by
    intro progress
    rw [whole, unpackEntries, unpackEntry, named]
    rfl
  rw [unpack]
  split
  · simp
  split
  · split
    · rw [refused]
      intro same
      cases same
    · simp
  · simp

end Whole

/-- A tree that can be packed: its entries lie in directories, its names are
those of a file system, and the mode of a link is that of every link. -/
structure Packable (root : Path) (source : World) : Prop where
  real : RealDir root source.tree root
  proper : Proper source.tree
  named : Named source.tree
  links : ∀ path text, source.tree.lookup path = some (.link text) →
    (source.attr path).mode = linkMode

variable {root path host : Path} {source : World} {shown : Shown}

theorem Packable.linkMode (packable : Packable root source)
    (here : source.shownAt path = some shown) :
    ∀ text attr, shown = .link text attr → attr.mode = linkMode := by
  intro text attr isLink
  subst isLink
  rw [shownAt] at here
  split at here <;> cases here
  exact packable.links _ _ (by assumption)

theorem expectedAt_concat (source : World) (above : List String) (base : String) (host : Path) :
    expectedAt source (above ++ [base]) host = expectedAt source [base] host := by
  funext rel
  cases rel with
  | nil => rfl
  | cons name names => simp [expectedAt]

theorem shownAt_of_expected (expected : expectedAt source [base] host rel = some shown) :
    ∃ names, source.shownAt (host ++ names) = some shown := by
  cases rel with
  | nil => cases expected
  | cons name names =>
    simp only [expectedAt, getLast?_singleton] at expected
    split at expected
    · exact ⟨names, expected⟩
    · cases expected

/-- A path is given back exactly when it is not the root and each entry comes back. -/
theorem reproduces_iff {root destRoot : Path} {linkSteps : Nat}
    {packRoot unpackRoot : RootPath} {source target : World}
    {path dest : String} {host destHost : Path} {opts : UnpackOptions}
    (confines : Confines root packRoot) (packWalks : Walks packRoot)
    (unpackWalks : Walks unpackRoot) (packable : Packable root source)
    (given : resolveParent packRoot source.tree (cleanPath true path) = some host)
    (present : cleanPath true path ≠ [] → source.tree.lookup host ≠ none)
    (destination : Destination destRoot unpackRoot target (cleanPath true dest) destHost)
    (owned : opts.copyUidGid = true) :
    Reproduces linkSteps packRoot unpackRoot source target path dest opts host destHost ↔
      cleanPath true path ≠ [] ∧ ∀ names shown, source.shownAt (host ++ names) = some shown →
          shown.ComesBack target.now := by
  rcases eq_nil_or_concat (cleanPath true path) with
    top | ⟨above, base, split⟩
  · constructor
    · intro reproduced
      obtain ⟨entries, final, packed, unpacked, -⟩ := reproduced
      exact absurd unpacked (root_refused top packed)
    · intro condition
      exact absurd top condition.1
  · rw [concat_eq_append] at split
    rw [Reproduces, split, expectedAt_concat]
    rw [split] at given present
    have parent : ∃ hostDir, packRoot source.tree above = some hostDir ∧
        host = hostDir ++ [base] := by
      simpa [resolveParent, eq_comm] using given
    obtain ⟨hostDir, found, whole⟩ := parent
    subst whole
    have packed : pack linkSteps packRoot source path = .ok _ :=
      pack_eq packWalks packable.proper packable.named split found
        (confines _ _ _ packable.real found) (present (by simp))
    obtain ⟨final, unpacked, restored⟩ :=
      @unpack_listing destRoot linkSteps unpackRoot source target dest destHost
        opts unpackWalks destination owned packable.proper packable.named hostDir base
    constructor
    · intro reproduced
      obtain ⟨entries, other, packedAs, unpackedAs, same⟩ := reproduced
      cases packed.symm.trans packedAs
      cases unpacked.symm.trans unpackedAs
      refine ⟨by simp, ?_⟩
      intro names shown here
      have expected : expectedAt source [base] (hostDir ++ [base])
          (base :: names) = some shown := by
        simpa [expectedAt] using here
      have twice := (restored (base :: names) (by simp)).symm.trans (same (base :: names) (by simp))
      rw [expected] at twice
      exact (restored_eq_iff (packable.linkMode here)).mp (Option.some.inj twice)
    · intro condition
      refine ⟨_, final, packed, unpacked, ?_⟩
      intro rel some_
      rw [restored rel some_]
      cases expected : expectedAt source [base] (hostDir ++ [base]) rel with
      | none => rfl
      | some shown =>
        obtain ⟨names, here⟩ := shownAt_of_expected expected
        rw [map_some, (restored_eq_iff (packable.linkMode here)).mpr (condition.2 names shown here)]

/-! ## A program file -/

theorem directRootPath_iff {tree : Tree} : directRootPath root tree path = some host ↔
      host = root ++ path ∧ (∀ name ∈ host, PlainName name) ∧
        ∀ chain, chain <+: host → ∀ node ∈ tree.lookup chain, node.isLink = false := by
  simp only [← mem_inits, directRootPath]
  split
  · rename_i allowed
    constructor
    · intro given
      cases given
      exact ⟨rfl, allowed⟩
    · intro given
      rw [given.1]
  · rename_i refused
    constructor
    · intro given
      cases given
    · intro given
      rw [given.1] at given
      exact absurd given.2 refused

theorem walks_directRootPath (root : Path) : Walks (directRootPath root) := by
  intro tree path host name given plain here
  obtain ⟨whole, names, noLinks⟩ := directRootPath_iff.mp given
  subst whole
  apply directRootPath_iff.mpr
  refine ⟨by simp, ?_, ?_⟩
  · exact forall_mem_append.mpr ⟨names, forall_mem_singleton.mpr plain⟩
  · intro chain chained node found
    rcases prefix_concat_iff.mp chained with same | above
    · rw [same, here] at found
      cases found
      rfl
    · exact noLinks chain above node found

theorem settled_directRootPath {root cdest : Path} {world : World}
    (found : directRootPath root world.tree cdest = some (root ++ cdest)) (tree : Tree)
    (same : ∀ path, (root ++ cdest <+: path → path = root ++ cdest) →
      tree.lookup path = world.tree.lookup path) :
    directRootPath root tree cdest = some (root ++ cdest) := by
  obtain ⟨-, names, noLinks⟩ := directRootPath_iff.mp found
  apply directRootPath_iff.mpr
  refine ⟨rfl, names, ?_⟩
  intro chain chained
  rw [same chain fun below => chained.eq_of_length (le_antisymm chained.length_le below.length_le)]
  exact noLinks chain chained

def programTree : Tree :=
  [(["srv"], .dir), (["srv", "su"], .file 0), (["srv", "out"], .dir)]

variable (mode : Mode)

def programWorld : World where
  tree := programTree
  content _ := "program"
  fileAttr _ := { mode, uid := 0, gid := 0, mtime := 7 }
  attr _ := rootAttr
  nextInode := 1
  now := 100

theorem packable_programWorld : Packable ["srv"] (programWorld mode) where
  real := by
    apply realDir_of_inits (prefix_refl _) (by decide)
    exact (by decide : ∀ chain ∈ ["srv"].inits, chain ≠ [] → programTree.isDir chain = true)
  proper := by
    apply proper_of_entries
    exact (by decide : ∀ entry ∈ programTree, entry.1.dropLast = [] ∨
      programTree.isDir entry.1.dropLast = true)
  named := (by decide : ∀ entry ∈ programTree, ∀ name ∈ entry.1, FileName name)
  links := by
    intro path text here
    have mem := Tree.mem_of_lookup here
    simp [programWorld, programTree] at mem

theorem destination_programWorld : Destination ["srv"] (directRootPath ["srv"]) (programWorld mode)
      (cleanPath true "/out") ["srv", "out"] where
  real := by
    apply realDir_of_inits (by decide) (by decide)
    exact (by decide : ∀ chain ∈ ["srv", "out"].inits, chain ≠ [] → programTree.isDir chain = true)
  empty := by
    intro names some_
    by_contra present
    obtain ⟨node, found⟩ := ne_none_iff_exists'.mp present
    have mem := Tree.mem_of_lookup found
    simp [programWorld, programTree, some_] at mem
  settled := by
    have cleaned : cleanPath true "/out" = ["out"] := by decide +kernel
    rw [cleaned]
    apply @settled_directRootPath ["srv"] ["out"] (programWorld mode)
    exact (by decide : directRootPath ["srv"] programTree ["out"] = some ["srv", "out"])
  top := rfl

/-- A program without set-id bits is copied as it is. -/
theorem program_reproduced : Reproduces 40 (directRootPath ["srv"]) (directRootPath ["srv"])
      (programWorld mode755) (programWorld mode755) "/su"
      "/out" { copyUidGid := true } ["srv", "su"] ["srv", "out"] := by
  apply (reproduces_iff (confines_directRootPath _) (walks_directRootPath _)
    (walks_directRootPath _) (packable_programWorld _) ?_ ?_ (destination_programWorld _) rfl).mpr
  · refine ⟨by decide +kernel, ?_⟩
    intro names shown here
    have present : programTree.lookup (["srv", "su"] ++ names) ≠ none := by
      intro absent
      rw [shownAt_eq_none.mpr absent] at here
      cases here
    obtain ⟨node, found⟩ := ne_none_iff_exists'.mp present
    have member := Tree.mem_of_lookup found
    have only : names = [] := by
      simp [programTree] at member
      exact member.1
    subst only
    cases here
    decide
  · decide +kernel
  · exact fun _ => (by decide : programTree.lookup ["srv", "su"] ≠ none)

def Shown.attr : Shown → Attr
  | .dir attr => attr
  | .file _ attr => attr
  | .link _ attr => attr

/-- A set-uid program loses its bit. -/
theorem setuid_lost : Packable ["srv"] (programWorld { mode755 with setuid := true }) ∧
      Destination ["srv"] (directRootPath ["srv"]) (programWorld { mode755 with setuid := true })
        (cleanPath true "/out") ["srv", "out"] ∧
      ¬Reproduces 40 (directRootPath ["srv"]) (directRootPath ["srv"])
        (programWorld { mode755 with setuid := true })
        (programWorld { mode755 with setuid := true }) "/su" "/out"
        { copyUidGid := true } ["srv", "su"] ["srv", "out"] := by
  refine ⟨packable_programWorld _, destination_programWorld _, ?_⟩
  intro reproduced
  obtain ⟨entries, final, packed, unpacked, same⟩ := reproduced
  have copied : (do
      let entries ← (pack 40 (directRootPath ["srv"])
        (programWorld { mode755 with setuid := true }) "/su").toOption
      let final ← (unpack 40 (directRootPath ["srv"])
        (programWorld { mode755 with setuid := true }) "/out"
        { copyUidGid := true } entries true).toOption
      (final.shownAt ["srv", "out", "su"]).map fun shown =>
        shown.attr.mode.setuid) = some false := by
    decide +kernel
  have before : ((expectedAt (programWorld { mode755 with setuid := true })
      (cleanPath true "/su") ["srv", "su"] ["su"]).map fun shown =>
        shown.attr.mode.setuid) = some true := by
    decide +kernel
  have after : final.shownAt ["srv", "out", "su"] = _ := same ["su"] (by simp)
  simp only [packed, unpacked, Except.toOption, bind_eq_bind, bind_some] at copied
  rw [after, before] at copied
  cases copied

end Cornus.Tarcopy
