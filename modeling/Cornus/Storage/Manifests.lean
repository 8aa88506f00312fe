import Cornus.Storage.Keys
import Mathlib.Data.List.Dedup

/-!
# Manifests, tags and repositories over an object store

The object store is a map from keys to contents that can be listed one directory
at a time.  A manifest is a blob, a marker in its repository that holds the media
type, and perhaps a tag that holds the digest.
-/

namespace Cornus.Storage

open List

/-- The object store.  A content is a text, as strings of the source are here; bytes
that are not UTF-8 are left out. -/
abbrev Objects := AList fun _ : Key => String

/-- What a listing with delimiter `/` shows of a key. -/
inductive Entry where
  | file (name : String)
  | dir (name : String)
  deriving DecidableEq

def entryUnder (dir key : Key) : Option Entry :=
  if dir.isPrefixOf key then
    match key.drop dir.length with
    | [] => none
    | [name] => some (.file name)
    | name :: _ => some (.dir name)
  else none

variable (objects : Objects) (dir : Key)

/-- `List`: the entries below a directory. -/
def listDir : List Entry :=
  (objects.keys.filterMap (entryUnder dir)).dedup

def Entry.fileName : Entry → Option String
  | .file name => some name
  | .dir _ => none

def Entry.dirName : Entry → Option String
  | .file _ => none
  | .dir name => some name

structure Manifest where
  content : String
  digest : String
  mediaType : String
  deriving DecidableEq

/-- `PutBlob`: a blob that is there already is not written again. -/
def putBlob (sha : Digester) (objects : Objects) (content : String) : Objects :=
  if (objects.lookup (blobKeyOf (sha.hex content))).isSome then objects
  else objects.insert (blobKeyOf (sha.hex content)) content

/-- The store after `PutManifest`; the content is written first, the tag
last. -/
def putManifest (sha : Digester) (objects : Objects)
    (repo ref mediaType content : String) : Objects :=
  let stored := (putBlob sha objects content).insert (manifestKey repo (sha.hex content)) mediaType
  if isDigest ref then stored
  else stored.insert (tagKey repo ref) (digestOf (sha.hex content))

variable (repo ref : String)

/-- The digest a reference stands for, as `GetManifest` resolves it. -/
def resolveRef : Except StorageError String :=
  if isDigest ref then .ok ref
  else
    match objects.lookup (tagKey repo ref) with
    | none => .error .notFound
    | some raw => .ok (trimSpace raw)

/-- `GetManifest`. -/
def getManifest : Except StorageError Manifest :=
  match resolveRef objects repo ref with
  | .error err => .error err
  | .ok digest =>
    match parseDigest digest with
    | .error err => .error (if isDigest ref then err else .notFound)
    | .ok hex =>
      match objects.lookup (manifestKey repo hex) with
      | none => .error .notFound
      | some mediaType =>
        match objects.lookup (blobKeyOf hex) with
        | none => .error .notFound
        | some content => .ok ⟨content, digest, mediaType⟩

/-- `DeleteManifest`. -/
def deleteManifest (repo digest : String) : Except StorageError Objects :=
  match parseDigest digest with
  | .error err => .error err
  | .ok hex =>
    if (objects.lookup (manifestKey repo hex)).isSome then
      .ok (objects.erase (manifestKey repo hex))
    else .error .notFound

variable (repo : String)

def tagsDir : Key :=
  pathJoin ["repos", sanitizeRepo repo, "tags"]

/-- `Tags`. -/
def tags : List String :=
  sortStrings ((listDir objects (tagsDir repo)).filterMap Entry.fileName)

/-- The repository of a marker directory: its path without the leading `repos/`
and the trailing `/manifests`. -/
def repoName : String :=
  let name := dir.drop 1
  "/".intercalate (if name.length ≤ 1 then name else name.dropLast)

theorem repoName_markers : repoName ("repos" :: repoParts repo ++ ["manifests"]) =
      sanitizeRepo repo := by
  have long : ¬(repoParts repo ++ ["manifests"]).length ≤ 1 := by
    have parts := length_pos_of_ne_nil (splitOnChar_ne_nil '/' repo)
    simp only [repoParts, length_append, length_map, length_singleton]
    omega
  rw [repoName]
  simp only [cons_append, drop_succ_cons, drop_zero, if_neg long, dropLast_concat]
  rfl

/-- `walkRepos`; `fuel` bounds the depth. -/
def walkRepos (objects : Objects) : Nat → Key → List String
  | 0, _ => []
  | fuel + 1, dir =>
    let entries := listDir objects dir
    (if dir.getLast? = some "manifests" ∧
        (entries.filterMap Entry.fileName) ≠ [] then [repoName dir]
      else []) ++
    (entries.filterMap Entry.dirName).flatMap fun name =>
      walkRepos objects fuel (dir ++ [name])

def depth : Nat :=
  (objects.keys.map List.length).foldl max 0

/-- The repositories that a walk of the tree finds. -/
def repos (objects : Objects) : List String :=
  sortStrings (walkRepos objects (depth objects) ["repos"])

section Listing

variable {objects : Objects} {dir key : Key} {name : String}

theorem entryUnder_file : entryUnder dir key = some (.file name) ↔ key = dir ++ [name] := by
  unfold entryUnder
  constructor
  · intro shown
    split at shown
    · rename_i begins
      obtain ⟨rest, rfl⟩ := isPrefixOf_iff_prefix.mp begins
      rw [drop_left] at shown
      split at shown <;> cases shown
      rfl
    · cases shown
  · rintro rfl
    simp

theorem entryUnder_dir : entryUnder dir key = some (.dir name) ↔
      ∃ rest, rest ≠ [] ∧ key = dir ++ name :: rest := by
  unfold entryUnder
  constructor
  · intro shown
    split at shown
    · rename_i begins
      obtain ⟨rest, rfl⟩ := isPrefixOf_iff_prefix.mp begins
      rw [drop_left] at shown
      split at shown
      · cases shown
      · cases shown
      rename_i first others single
      cases shown
      refine ⟨others, ?_, rfl⟩
      rintro rfl
      exact single rfl
    · cases shown
  · rintro ⟨rest, more, rfl⟩
    cases rest with
    | nil => exact absurd rfl more
    | cons next others => simp

theorem mem_files : name ∈ (listDir objects dir).filterMap Entry.fileName ↔
      dir ++ [name] ∈ objects := by
  rw [mem_filterMap]
  constructor
  · rintro ⟨entry, mem, shown⟩
    cases entry with
    | dir other => cases shown
    | file other =>
      cases shown
      rw [listDir, mem_dedup, mem_filterMap] at mem
      obtain ⟨key, among, under⟩ := mem
      rw [entryUnder_file.mp under] at among
      exact among
  · intro stored
    refine ⟨.file name, ?_, rfl⟩
    rw [listDir, mem_dedup, mem_filterMap]
    exact ⟨_, stored, entryUnder_file.mpr rfl⟩

theorem mem_dirs : name ∈ (listDir objects dir).filterMap Entry.dirName ↔
      ∃ rest, rest ≠ [] ∧ dir ++ name :: rest ∈ objects := by
  rw [mem_filterMap]
  constructor
  · rintro ⟨entry, mem, shown⟩
    cases entry with
    | file other => cases shown
    | dir other =>
      cases shown
      rw [listDir, mem_dedup, mem_filterMap] at mem
      obtain ⟨key, among, under⟩ := mem
      obtain ⟨rest, more, rfl⟩ := entryUnder_dir.mp under
      exact ⟨rest, more, among⟩
  · rintro ⟨rest, more, stored⟩
    refine ⟨.dir name, ?_, rfl⟩
    rw [listDir, mem_dedup, mem_filterMap]
    exact ⟨_, stored, entryUnder_dir.mpr ⟨rest, more, rfl⟩⟩

theorem nodup_files : ((listDir objects dir).filterMap Entry.fileName).Nodup := by
  apply (nodup_dedup _).filterMap
  intro entry other name first second
  cases entry <;> cases other <;> cases first <;> cases second
  rfl

theorem nodup_dirs : ((listDir objects dir).filterMap Entry.dirName).Nodup := by
  apply (nodup_dedup _).filterMap
  intro entry other name first second
  cases entry <;> cases other <;> cases first <;> cases second
  rfl

theorem length_le_depth (stored : key ∈ objects) : key.length ≤ depth objects := by
  unfold depth
  have bound : ∀ (lengths : List Nat) (start n : Nat),
      n ∈ lengths ∨ n ≤ start → n ≤ lengths.foldl max start := by
    intro lengths
    induction lengths with
    | nil =>
      intro start n below
      rcases below with impossible | below
      · cases impossible
      · exact below
    | cons first rest ih =>
      intro start n below
      apply ih
      rcases below with mem | below
      · rcases mem_cons.mp mem with rfl | later
        · exact .inr (Nat.le_max_right _ _)
        · exact .inl later
      · exact .inr (Nat.le_trans below (Nat.le_max_left _ _))
  exact bound _ _ _ (.inl (mem_map_of_mem stored))

end Listing

/-- The marker directories below a directory, in the order of the walk. -/
def markerDirs (objects : Objects) : Nat → Key → List Key
  | 0, _ => []
  | fuel + 1, dir =>
    let entries := listDir objects dir
    (if dir.getLast? = some "manifests" ∧
        (entries.filterMap Entry.fileName) ≠ [] then [dir] else []) ++
    (entries.filterMap Entry.dirName).flatMap fun name =>
      markerDirs objects fuel (dir ++ [name])

variable {objects : Objects}

theorem walkRepos_eq_map (fuel : Nat) (dir : Key) : walkRepos objects fuel dir =
      (markerDirs objects fuel dir).map repoName := by
  induction fuel generalizing dir with
  | zero => rfl
  | succ fuel ih =>
    rw [walkRepos, markerDirs, map_append, map_flatMap]
    congr 1
    · split <;> rfl
    · congr 1
      funext name
      exact ih (dir ++ [name])

variable {fuel : Nat} {dir found : Key}

theorem prefix_of_markerDirs (mem : found ∈ markerDirs objects fuel dir) : dir <+: found := by
  induction fuel generalizing dir with
  | zero => cases mem
  | succ fuel ih =>
    rw [markerDirs, mem_append, mem_flatMap] at mem
    rcases mem with own | ⟨name, _, below⟩
    · split at own
      · cases mem_singleton.mp own
        exact prefix_rfl
      · cases own
    · exact (prefix_append dir [name]).trans (ih below)

theorem nodup_markerDirs (fuel : Nat) (dir : Key) : (markerDirs objects fuel dir).Nodup := by
  induction fuel generalizing dir with
  | zero => exact nodup_nil
  | succ fuel ih =>
    rw [markerDirs, nodup_append]
    refine ⟨?_, ?_, ?_⟩
    · split
      · exact nodup_singleton _
      · exact nodup_nil
    · rw [nodup_flatMap]
      refine ⟨fun name _ => ih (dir ++ [name]), ?_⟩
      apply nodup_dirs.imp
      intro name other ne found inName inOther
      have short := prefix_of_markerDirs inName
      have long := prefix_of_markerDirs inOther
      have same : dir ++ [name] = dir ++ [other] := by
        apply (prefix_of_prefix_length_le short long (by simp)).eq_of_length
        simp
      exact ne (by simpa using same)
    · intro own ofOwn other ofOther same
      subst same
      split at ofOwn
      · rw [mem_singleton.mp ofOwn, mem_flatMap] at ofOther
        obtain ⟨name, _, below⟩ := ofOther
        have length := (prefix_of_markerDirs below).length_le
        rw [length_append, length_singleton] at length
        omega
      · cases ofOwn

theorem mem_markerDirs (deep : ∀ key ∈ objects, key.length ≤ dir.length + fuel) :
    found ∈ markerDirs objects fuel dir ↔ dir <+: found ∧ found.getLast? = some "manifests" ∧
        ∃ name, found ++ [name] ∈ objects := by
  induction fuel generalizing dir with
  | zero =>
    constructor
    · intro mem
      cases mem
    · rintro ⟨begins, _, name, stored⟩
      have short := deep _ stored
      have long := begins.length_le
      rw [length_append, length_singleton] at short
      omega
  | succ fuel ih =>
    rw [markerDirs, mem_append, mem_flatMap]
    constructor
    · rintro (own | ⟨name, _, below⟩)
      · split at own
        · rename_i holds
          rw [mem_singleton.mp own]
          obtain ⟨name, mem⟩ := exists_mem_of_ne_nil _ holds.2
          exact ⟨prefix_rfl, holds.1, name, mem_files.mp mem⟩
        · cases own
      · have inner := (ih fun key stored => by
          have bound := deep key stored
          rw [length_append, length_singleton]
          omega).mp below
        exact ⟨(prefix_append dir [name]).trans inner.1, inner.2⟩
    · rintro ⟨⟨rest, rfl⟩, last, name, stored⟩
      cases rest with
      | nil =>
        left
        rw [append_nil] at last stored ⊢
        have files : name ∈ (listDir objects dir).filterMap Entry.fileName := mem_files.mpr stored
        rw [if_pos ⟨last, ne_nil_of_mem files⟩]
        exact mem_singleton_self _
      | cons next others =>
        right
        refine ⟨next, ?_, ?_⟩
        · rw [mem_dirs]
          refine ⟨others ++ [name], by simp, ?_⟩
          rw [append_assoc, cons_append] at stored
          exact stored
        · rw [ih fun key held => by
            have bound := deep key held
            rw [length_append, length_singleton]
            omega]
          refine ⟨⟨others, by simp⟩, last, name, stored⟩

end Cornus.Storage
