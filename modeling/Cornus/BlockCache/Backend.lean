import Cornus.BlockCache.MemLaws
import Cornus.BlockCache.DiskLaws

/-!
# The two backends

Results that hold for either store are stated over `Backend`.
-/

namespace Cornus.BlockCache

/-- The two stores a proxy may be set up with. -/
inductive Backend where
  | mem
  | disk
deriving DecidableEq

namespace Backend

variable (Hash : Type) [Inhabited Hash]

/-- What the store keeps of one file. -/
def Entry : Backend → Type
  | .mem => MemEntry Hash
  | .disk => DiskEntry Hash

variable {Hash}

/-- The operations of the store. -/
def store [DecidableEq Hash] (backend : Backend) (hashChunk : Bytes → Hash)
    (chunk : ChunkSize) : Store Hash (backend.Entry Hash) :=
  match backend with
  | .mem => memStore hashChunk chunk
  | .disk => diskStore hashChunk chunk

variable (backend : Backend)

/-- What the store's entries stand for. -/
def view (Hash : Type) [Inhabited Hash] (chunk : ChunkSize) : View (backend.Entry Hash) :=
  match backend with
  | .mem => memView Hash
  | .disk => diskView Hash chunk

/-- Both stores follow the laws of a view. -/
theorem lawful [DecidableEq Hash] (hashChunk : Bytes → Hash) (chunk : ChunkSize) :
    (backend.view Hash chunk).Lawful hashChunk chunk (backend.store hashChunk chunk) := by
  cases backend with
  | mem => exact memView_lawful hashChunk chunk
  | disk => exact diskView_lawful hashChunk chunk

end Backend

end Cornus.BlockCache
