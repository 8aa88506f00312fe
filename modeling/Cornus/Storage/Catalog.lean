import Cornus.Lib.Run
import Cornus.Storage.Collect

/-!
# The cached catalog

`Repos` answers from a cached list, or walks the tree one listing at a time and
publishes what it found if no write has invalidated the cache meanwhile.  Calls
run concurrently; each takes its steps in the order of the source, and between
two of them any other call may take any number of its own.  The expiry of the
cached list is left out: a list is reused until a write drops it.

The generation is a natural number; the counter of the source has 64 bits.
-/

namespace Cornus.Storage

open Lib

/-- A digest that `parseDigest` takes. -/
structure HexDigest where
  hex : String
  parsed : parseDigest (digestOf hex) = .ok hex
  deriving DecidableEq

theorem HexDigest.plain (digest : HexDigest) : Plain digest.hex := plain_of_hex digest.parsed

/-- The store and the cached list with its generation. -/
structure Catalog where
  objects : Objects := ∅
  list : Option (List String) := none
  gen : Nat := 0

/-- Where a call stands. -/
inductive Caller where
  /-- `PutManifest` before its marker is written. -/
  | putting (repo : String) (digest : HexDigest) (mediaType : String)
  /-- The marker is written, the cache is not yet invalidated. -/
  | written (repo : String) (digest : HexDigest)
  | put (repo : String) (digest : HexDigest)
  | deleting (repo : String) (digest : HexDigest)
  | found (repo : String) (digest : HexDigest)
  /-- The marker is removed; `last` records that the repository has none
  left. -/
  | removed (repo : String) (last : Bool)
  | deleted (repo : String) (last : Bool)
  /-- `DeleteManifest` has returned an error. -/
  | refused
  | asking
  /-- The walk, with the generation read before it, the directories still to be
  listed and the repositories found. -/
  | walking (gen : Nat) (dirs : List Key) (repos : List String)
  | answered (repos : List String)
  deriving DecidableEq

variable (catalog : Catalog)

/-- `invalidateCatalog`. -/
def Catalog.invalidate : Catalog :=
  { catalog with list := none, gen := catalog.gen + 1 }

variable (objects : Objects) (dir : Key)

def subdirs : List Key :=
  ((listDir objects dir).filterMap Entry.dirName).map fun name => dir ++ [name]

def repoAt : List String :=
  if dir.getLast? = some "manifests" ∧ (listDir objects dir).filterMap Entry.fileName ≠ [] then
    [repoName dir]
  else []

/-- The next step of a call; a call that has returned takes none. -/
def Caller.act : Caller → Option (Catalog × Caller)
  | .putting repo digest mediaType =>
    let objects :=
      catalog.objects.insert (manifestKey repo digest.hex) mediaType
    some ({ catalog with objects }, .written repo digest)
  | .written repo digest => some (catalog.invalidate, .put repo digest)
  | .put _ _ => none
  | .deleting repo digest =>
    if (catalog.objects.lookup (manifestKey repo digest.hex)).isSome then
      some (catalog, .found repo digest)
    else some (catalog, .refused)
  | .found repo digest =>
    let objects := catalog.objects.erase (manifestKey repo digest.hex)
    some ({ catalog with objects }, .removed repo (manifestHexes objects repo).isEmpty)
  | .removed repo last => some (catalog.invalidate, .deleted repo last)
  | .deleted _ _ => none
  | .refused => none
  | .asking =>
    match catalog.list with
    | some list => some (catalog, .answered list)
    | none => some (catalog, .walking catalog.gen [["repos"]] [])
  | .walking gen (dir :: dirs) repos =>
    some (catalog, .walking gen (subdirs catalog.objects dir ++ dirs)
      (repos ++ repoAt catalog.objects dir))
  | .walking gen [] repos =>
    let list := sortStrings repos
    -- The list is published only if no write came between.
    if catalog.gen = gen then
      some ({ catalog with list := some list }, .answered list)
    else some (catalog, .answered list)
  | .answered _ => none

/-- The catalog and the calls that have begun. -/
structure Backend where
  catalog : Catalog := {}
  callers : List Caller := []

/-- A call begins, or one of the calls takes its next step. -/
inductive Turn where
  | put (repo : String) (digest : HexDigest) (mediaType : String)
  | delete (repo digest : String)
  | repos
  | act (caller : Nat)

def beginDelete (repo digest : String) : Caller :=
  match parsed : parseDigest digest with
  | .error _ => .refused
  | .ok hex => .deleting repo ⟨hex, (parseDigest_ok parsed).1 ▸ parsed⟩

def Turn.begins : Turn → Option Caller
  | .put repo digest mediaType => some (.putting repo digest mediaType)
  | .delete repo digest => some (beginDelete repo digest)
  | .repos => some .asking
  | .act _ => none

/-- The backend after a turn. -/
def Backend.step (backend : Backend) : Turn → Option Backend
  | .act index => do
    let caller ← backend.callers[index]?
    let (catalog, next) ← caller.act backend.catalog
    pure ⟨catalog, backend.callers.set index next⟩
  | turn =>
    turn.begins.map fun caller =>
      { backend with callers := backend.callers ++ [caller] }

def sameRepo (repo other : String) : Bool :=
  sanitizeRepo repo == sanitizeRepo other

variable (repo : String)

def Caller.willPut : Caller → Bool
  | .putting other _ _ => sameRepo other repo
  | _ => false

/-- A `DeleteManifest` of the repository that may still remove a marker. -/
def Caller.willDelete : Caller → Bool
  | .deleting other _ => sameRepo other repo
  | .found other _ => sameRepo other repo
  | _ => false

def Turn.beginsPut : Turn → Bool
  | .put other _ _ => sameRepo other repo
  | _ => false

def Turn.beginsDelete : Turn → Bool
  | .delete other _ => sameRepo other repo
  | _ => false

def Caller.changed : Caller → Bool
  | .written _ _ | .put _ _ | .removed _ _ | .deleted _ _ => true
  | _ => false

def Caller.hasPut : Caller → Bool
  | .put other _ => sameRepo other repo
  | _ => false

/-- The call is a `DeleteManifest` that removed the last marker of the
repository and has returned. -/
def Caller.hasEmptied : Caller → Bool
  | .deleted other last => sameRepo other repo && last
  | _ => false

/-- The keys below `repos` lie in a directory of a repository. -/
def Shaped : Prop :=
  ∀ key ∈ objects, key.head? = some "repos" →
    ∃ repo kind name, key = "repos" :: repoParts repo ++ [kind, name]

def Unmarked (objects : Objects) : Prop :=
  ∀ name, manifestsDir repo ++ [name] ∉ objects

end Cornus.Storage
