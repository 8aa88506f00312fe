import Cornus.Lib.Run
import Cornus.Storage.Manifests

/-!
# The manifest store as a map

What the store is for: a map from repository and tag to a manifest.  A put
changes one entry, a delete removes the entries of one repository that hold the
deleted manifest.  The store answers as the map does in every run in which

* no tag contains two dots in a row, which `sanitize` would rewrite;
* a manifest that another tag of the repository points at is put with the media
  type it has, and not after it was deleted;
* no two contents share a digest.
-/

namespace Cornus.Storage

open Lib

/-- Manifests by repository and tag, the tags put to each repository and the
manifests each repository holds. -/
structure ManifestMap where
  manifest : String → String → Option Manifest := fun _ _ => none
  (tagged marked : List (String × String) := [])

namespace ManifestMap

/-- A manifest is put under a tag, or under its digest alone. -/
def put (sha : Digester) (map : ManifestMap) (repo ref mediaType content : String) : ManifestMap :=
  let marked := map.marked.insert (repo, sha.hex content)
  if isDigest ref then { map with marked }
  else
    { manifest := fun otherRepo otherTag =>
        if otherRepo = repo ∧ otherTag = ref then
          some ⟨content, digestOf (sha.hex content), mediaType⟩
        else map.manifest otherRepo otherTag
      tagged := map.tagged.insert (repo, ref)
      marked }

variable (map : ManifestMap)

def delete (repo hex : String) : ManifestMap :=
  { map with
    manifest := fun otherRepo tag =>
      (map.manifest otherRepo tag).filter fun manifest =>
        !(otherRepo == repo && manifest.digest == digestOf hex)
    marked := map.marked.filter (· != (repo, hex)) }

def tags (repo : String) : List String :=
  sortStrings ((map.tagged.filter (·.1 == repo)).map Prod.snd)

def repos : List String :=
  sortStrings (map.marked.map Prod.fst).dedup

end ManifestMap

/-- The calls of the store. -/
inductive Call where
  | put (repo ref mediaType content : String)
  | delete (repo digest : String)
  | get (repo tag : String)
  | tags (repo : String)
  | repos

/-- What they answer. -/
inductive Answer where
  | digest (digest : String)
  | deleted (result : Except StorageError Unit)
  | manifest (result : Except StorageError Manifest)
  | names (names : List String)
  deriving DecidableEq

def Call.legal : Call → Bool
  | .put repo ref _ _ => legalRepo repo && (isDigest ref || legalTag ref)
  | .delete repo _ => legalRepo repo
  | .get repo tag => legalRepo repo && legalTag tag
  | .tags repo => legalRepo repo
  | .repos => true

def Call.touches (repo tag : String) : Call → Bool
  | .put other ref _ _ => other == repo && ref == tag
  | .delete other _ => other == repo
  | _ => false

structure Library where
  objects : Objects := ∅
  map : ManifestMap := {}

variable (sha : Digester) (objects : Objects)

/-- The answer of the store. -/
def storeAnswer : Call → Answer
  | .put _ _ _ content => .digest (digestOf (sha.hex content))
  | .delete repo digest =>
    .deleted ((deleteManifest objects repo digest).map fun _ => ())
  | .get repo tag => .manifest (getManifest objects repo tag)
  | .tags repo => .names (tags objects repo)
  | .repos => .names (repos objects)

/-- The store after a call. -/
def storeNext : Call → Objects
  | .put repo ref mediaType content =>
    putManifest sha objects repo ref mediaType content
  | .delete repo digest =>
    match deleteManifest objects repo digest with
    | .ok rest => rest
    | .error _ => objects
  | _ => objects

variable (map : ManifestMap)

/-- The answer of the map. -/
def mapAnswer : Call → Answer
  | .put _ _ _ content => .digest (digestOf (sha.hex content))
  | .delete repo digest =>
    .deleted (match parseDigest digest with
      | .error err => .error err
      | .ok hex =>
        if (repo, hex) ∈ map.marked then .ok () else .error .notFound)
  | .get repo tag =>
    .manifest (match map.manifest repo tag with
      | none => .error .notFound
      | some manifest => .ok manifest)
  | .tags repo => .names (map.tags repo)
  | .repos => .names map.repos

/-- The map after a call. -/
def mapNext : Call → ManifestMap
  | .put repo ref mediaType content => map.put sha repo ref mediaType content
  | .delete repo digest =>
    match parseDigest digest with
    | .error _ => map
    | .ok hex => map.delete repo hex
  | _ => map

def libraryStep (library : Library) (call : Call) : Option Library :=
  some ⟨storeNext sha library.objects call, mapNext sha library.map call⟩

/-- In every run the store answers as the map does, and a call leaves the
answers about every tag it does not touch. -/
def RunsRefine (allowed : Library → Call → Prop) : Prop :=
  ∀ calls call library,
    Along (libraryStep sha) allowed {} (calls ++ [call]) →
    run (libraryStep sha) {} calls = some library →
      storeAnswer sha library.objects call = mapAnswer sha library.map call ∧
      ∀ repo tag, call.touches repo tag = false →
        (Call.get repo tag).legal = true → allowed library (.get repo tag) →
          getManifest (storeNext sha library.objects call) repo tag =
            getManifest library.objects repo tag

/-- Some other tag of the repository points at this manifest. -/
def otherTag (repo ref hex : String) : Bool :=
  objects.entries.any fun object =>
    object.1.dropLast == tagsDir repo && (isDigest ref || object.1 != tagKey repo ref) &&
      object.2 == digestOf hex

/-- The call puts or asks for no tag that `sanitize` rewrites, changes no
manifest that another tag points at, and stores no second content under one
digest. -/
def harmless : Call → Bool
  | .put repo ref mediaType content =>
    (isDigest ref || dotless ref) &&
      (objects.lookup (blobKeyOf (sha.hex content))).all (· == content) &&
      (!otherTag objects repo ref (sha.hex content) ||
        objects.lookup (manifestKey repo (sha.hex content)) == some mediaType)
  | .get _ tag => dotless tag
  | _ => true

end Cornus.Storage
