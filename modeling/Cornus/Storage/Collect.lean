import Cornus.Lib.Attempt
import Cornus.Lib.Search
import Cornus.Storage.Manifests

/-!
# Garbage collection of blobs

The collection marks what the markers and tags of every repository lead to and
deletes the other blobs.  Decoding a manifest is a parameter.  Each call to the
object store may fail; a `Faults` value says which ones do.
-/

namespace Cornus.Storage

/-- The digests a manifest or an index names (`gcManifest`). -/
structure GcManifest where
  config : String := ""
  (layers manifests : List String := [])
  subject : Option String := none
  deriving DecidableEq

def gcManifestReadLimit : Nat :=
  32 <<< 20

/-- `json.Unmarshal` into a `gcManifest`; `none` when it fails. -/
abbrev Decode := ByteArray → Option GcManifest

/-- What stops a collection. -/
inductive GcError where
  | list (dir : Key)
  | read (digest : String)
  | delete (key : Key)
  deriving DecidableEq

/-- Which calls to the object store fail. -/
structure Faults where
  /-- listing a directory while the repositories are walked -/
  walk : Key → Bool := fun _ => false
  /-- listing the markers or tags of a repository -/
  list : Key → Bool := fun _ => false
  /-- reading a tag or a blob -/
  get : Key → Bool := fun _ => false
  /-- listing the blobs -/
  sweep : Bool := false
  delete : Key → Bool := fun _ => false

inductive ReadError where
  | notFound
  | notManifest
  | failed
  deriving DecidableEq

/-- What a collection frees and leaves. -/
structure Outcome where
  freed : Nat
  error : Option GcError
  objects : Objects

def manifestsDir (repo : String) : Key :=
  pathJoin ["repos", sanitizeRepo repo, "manifests"]

theorem manifestsDir_eq (repo : String) :
    manifestsDir repo = "repos" :: repoParts repo ++ ["manifests"] :=
  pathJoin_repo repo (by simp [plain_manifests])

def manifestHexes (objects : Objects) (repo : String) : List String :=
  (listDir objects (manifestsDir repo)).filterMap Entry.fileName

variable (decode : Decode) (faults : Faults) (objects : Objects)

def walkReposIn : Nat → Key → Except GcError (List String)
  | 0, _ => .ok []
  | fuel + 1, dir =>
    if faults.walk dir then .error (.list dir)
    else
      let entries := listDir objects dir
      match gatherAll (fun name => walkReposIn fuel (dir ++ [name]))
          (entries.filterMap Entry.dirName) with
      | .error err => .error err
      | .ok below =>
        .ok ((if dir.getLast? = some "manifests" ∧
            (entries.filterMap Entry.fileName) ≠ [] then [repoName dir]
          else []) ++ below)

/-- `Repos`, given the list that is cached and still fresh. -/
def reposIn (cached : Option (List String)) : Except GcError (List String) :=
  match cached with
  | some names => .ok names
  | none => (walkReposIn faults objects (depth objects + 1) ["repos"]).map sortStrings

/-- `readTag`; `none` when it fails. -/
def readTag (repo tag : String) : Option String :=
  if faults.get (tagKey repo tag) then none
  else (objects.lookup (tagKey repo tag)).map trimSpace

/-- The roots of one repository: its markers, and its tags that can be read. -/
def repoRoots (repo : String) : Except GcError (List String) :=
  if faults.list (manifestsDir repo) then .error (.list (manifestsDir repo))
  else if faults.list (tagsDir repo) then .error (.list (tagsDir repo))
  else .ok (((manifestHexes objects repo).map digestOf ++
    (tags objects repo).filterMap (readTag faults objects repo)).filter isDigest)

def parseManifestBlob (digest : String) : Except ReadError GcManifest :=
  match blobKey digest with
  | .error _ => .error .failed
  | .ok key =>
    if faults.get key then .error .failed
    else
      match objects.lookup key with
      | none => .error .notFound
      | some content =>
        match decode (content.toUTF8.extract 0 gcManifestReadLimit) with
        | none => .error .notManifest
        | some manifest => .ok manifest

def digests (texts : List String) : List String :=
  texts.filter isDigest

/-- The variables of the mark loop; the stack has its top first. -/
structure Marking where
  queue : List String
  (visited reachable : List String := [])

/-- The manifests that roots lead to. -/
def mark : Nat → Marking → Option (Except GcError Marking)
  | 0, _ => none
  | fuel + 1, marking =>
    match marking.queue with
    | [] => some (.ok marking)
    | digest :: rest =>
      if digest ∈ marking.visited then
        mark fuel { marking with queue := rest }
      else
        let visited := digest :: marking.visited
        let reachable := digest :: marking.reachable
        match parseManifestBlob decode faults objects digest with
        | .error .failed => some (.error (.read digest))
        | .error _ => mark fuel { queue := rest, visited, reachable }
        | .ok manifest =>
          mark fuel
            { queue := digests manifest.subject.toList ++
                (digests manifest.manifests).reverse ++ rest
              visited
              reachable := digests manifest.subject.toList ++
                digests manifest.manifests ++ digests manifest.layers ++
                  digests [manifest.config] ++ reachable }

def blobKeys : List Key :=
  objects.keys.filter fun key =>
    ["blobs", "sha256"].isPrefixOf key && 2 < key.length

def keyDigest (key : Key) : String :=
  digestOf (key.getLast?.getD "")

/-- The blobs that are not reachable are deleted. -/
def sweep (reachable : List String) : List Key → Nat → Objects → Outcome
  | [], freed, objects => ⟨freed, none, objects⟩
  | key :: keys, freed, objects =>
    if isDigest (keyDigest key) = false ∨ keyDigest key ∈ reachable then
      sweep reachable keys freed objects
    else if faults.delete key then ⟨freed, some (.delete key), objects⟩
    else sweep reachable keys (freed + 1) (objects.erase key)

/-- `GC`; `fuel` bounds the turns of the mark loop. -/
def gc (fuel : Nat) (cached : Option (List String)) : Option Outcome :=
  match reposIn faults objects cached with
  | .error err => some ⟨0, some err, objects⟩
  | .ok names =>
    match gatherAll (repoRoots faults objects) names with
    | .error err => some ⟨0, some err, objects⟩
    | .ok roots =>
      match mark decode faults objects fuel { queue := roots.reverse } with
      | none => none
      | some (.error err) => some ⟨0, some err, objects⟩
      | some (.ok marking) =>
        if faults.sweep then
          some ⟨0, some (.list ["blobs", "sha256"]), objects⟩
        else
          some (sweep faults marking.reachable (blobKeys objects) 0 objects)

end Cornus.Storage
