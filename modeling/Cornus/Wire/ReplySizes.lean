import Cornus.Wire.Codec
import Cornus.Wire.DirtyUnits

/-!
# Sizes of the replies

The peer refuses a frame whose payload is longer than the chunk size and 4096
bytes.  A reply is given by what the file answered; listings, link targets, the
QIDs of a walk and the hashes of a write are sent in one frame.
-/

namespace Cornus.Wire.Msg

open Lib.Cursor List Nat

/-- The settings that decide the size of a reply. -/
structure Server where
  chunkSize : Nat
  noCache : Bool
  deferHash : Bool
  subBlockHash : Bool

namespace Server

variable (s : Server)

/-- The longest payload that the proxy takes. -/
def maxFrame : Nat :=
  s.chunkSize + 4096

def readAt (file : List UInt8) (off length : Nat) : List UInt8 :=
  (file.drop off).take length

/-- The loop of `handleRead`, from block `b` on. -/
def readPayloads (hashChunk : List UInt8 → UInt64) (file : List UInt8) (seq : UInt64) :
    Nat → Nat → List (List UInt8)
  | _, 0 => []
  | b, left + 1 =>
    let off := b * s.chunkSize
    let data := readAt file off s.chunkSize
    let hash := if file.length ≤ off then 0 else hashChunk data
    [be 8 b, be 8 seq.toNat, be 8 hash.toNat, be 4 data.length, data].flatten ::
      if file.length ≤ off + data.length then []
      else readPayloads hashChunk file seq (b + 1) left

/-- The blocks a write touches that begin before the end of the file. -/
def touched (off n size : Nat) : List Nat :=
  if n = 0 then []
  else
    (List.range' (off / s.chunkSize) ((off + n - 1) / s.chunkSize + 1 - off / s.chunkSize)).filter
      (· * s.chunkSize < size)

/-- The sub-blocks a write touches: block, offset and length. -/
def units (off n size : Nat) : List (Nat × Nat × Nat) :=
  (s.touched off n size).flatMap fun b =>
    let blockStart := b * s.chunkSize
    let validEnd := min (blockStart + s.chunkSize) size
    let lo := max off blockStart
    let hi := min (min (off + n) size) validEnd
    let first := (lo - blockStart) / 4096
    if hi ≤ lo then []
    else (List.range' first ((hi - blockStart + 4095) / 4096 - first)).map fun k =>
      (b, k * 4096, min (blockStart + k * 4096 + 4096) validEnd - (blockStart + k * 4096))

/-- The reply of `handleWrite`; `hash` is the hash of a part of the file. -/
def writePayload (hash : Nat → Nat → UInt64) (seq : UInt64) (off n size mtimeNs : Nat) :
    List UInt8 :=
  [be 4 n, be 8 size, be 8 mtimeNs, be 8 seq.toNat,
    if s.noCache || s.deferHash then be 2 0
    else if s.subBlockHash then
      putUnits ((s.units off n size).map fun (b, subOff, subLen) =>
        ⟨b, subOff, subLen, hash (b * s.chunkSize + subOff) subLen⟩)
    else be 2 (s.touched off n size).length ++ (s.touched off n size).flatMap fun b =>
      be 8 b ++ be 8 (hash (b * s.chunkSize)
        (min (b * s.chunkSize + s.chunkSize) size - b * s.chunkSize)).toNat].flatten

/-- The units of one frame. -/
def maxPer : Nat :=
  max 1 ((s.maxFrame - 64) / 24)

end Server

/-- What is replied to a request, by what the file answered. -/
inductive Answer
  | err (errno : UInt32)
  | done
  | walk (qids : List QID)
  | walkGetAttr (qids : List QID) (m : AttrMask) (a : Attr)
  | getAttr (q : QID) (m : AttrMask) (a : Attr)
  | opened (q : QID) (iounit : UInt32)
  | made (q : QID)
  | readlink (target : List UInt8)
  | statFS (stat : FSStat)
  | readdir (ents : List Dirent)
  | read (hashChunk : List UInt8 → UInt64) (file : List UInt8) (seq : UInt64) (b nBlocks : Nat)
  | readRange (file : List UInt8) (seq : UInt64) (b subOff subLen : Nat)
  | write (hash : Nat → Nat → UInt64) (seq : UInt64) (off n size mtimeNs : Nat)
  | fsync (units : List (UnitHash UInt64))

namespace Server

variable (s : Server)

/-- The payloads of an answer. -/
def payloads : Answer → List (List UInt8)
  | .err errno => [be 4 errno.toNat]
  | .done => [[]]
  | .walk qids => [putQIDs qids]
  | .walkGetAttr qids m a => [putQIDs qids ++ putAttrMask m ++ putAttr a]
  | .getAttr q m a => [putQID q ++ putAttrMask m ++ putAttr a]
  | .opened q iounit => [putQID q ++ be 4 iounit.toNat]
  | .made q => [putQID q]
  | .readlink target => [putStr target]
  | .statFS stat => [putFSStat stat]
  | .readdir ents => [putDirents ents]
  | .read hashChunk file seq b nBlocks => s.readPayloads hashChunk file seq b (max 1 nBlocks)
  | .readRange file seq b subOff subLen =>
    if subLen = 0 ∨ s.chunkSize < subLen then [be 4 22]
    else
      let data := readAt file (b * s.chunkSize + subOff) subLen
      [[be 8 b, be 4 subOff, be 8 seq.toNat, be 4 data.length, data].flatten]
  | .write hash seq off n size mtimeNs => [s.writePayload hash seq off n size mtimeNs]
  | .fsync units =>
    if !s.deferHash then [[]]
    else if units = [] then [be 2 0]
    else (splitFrames s.maxPer units.length units).map putUnits

/-- The answer is short enough for one frame. -/
def Fits : Answer → Prop
  | .walk qids => 2 + 13 * qids.length ≤ s.maxFrame
  | .walkGetAttr qids _ _ => 136 + 13 * qids.length ≤ s.maxFrame
  | .readlink target => 4 + target.length ≤ s.maxFrame
  | .readdir ents => 4 + (ents.map fun e => 26 + e.name.length).sum ≤ s.maxFrame
  | .write _ _ off n size _ => 30 + (if s.noCache || s.deferHash then 0
      else if s.subBlockHash then 24 * (s.units off n size).length
      else 16 * (s.touched off n size).length) ≤ s.maxFrame
  | _ => True

end Server

@[simp] theorem length_putQID (q : QID) : (putQID q).length = 13 := by simp [putQID]

@[simp] theorem length_putQIDs (qids : List QID) : (putQIDs qids).length = 2 + 13 * qids.length :=
    by
  simp [putQIDs, length_flatMap, mul_comm]

@[simp] theorem length_putAttrMask (m : AttrMask) : (putAttrMask m).length = 2 := by
  simp [putAttrMask]

@[simp] theorem length_putAttr (a : Attr) : (putAttr a).length = 132 := by simp [putAttr]

@[simp] theorem length_putStr (text : List UInt8) : (putStr text).length = 4 + text.length := by
  simp [putStr, putBlob]

@[simp] theorem length_putFSStat (stat : FSStat) : (putFSStat stat).length = 60 := by
  simp [putFSStat]

@[simp] theorem length_putDirent (e : Dirent) : (putDirent e).length = 26 + e.name.length := by
  simp only [putDirent, length_flatten, map_cons, map_nil, sum_cons,
    sum_nil, length_putQID, length_be, length_putStr]
  omega

theorem length_putDirents (ents : List Dirent) :
    (putDirents ents).length = 4 + (ents.map fun e => 26 + e.name.length).sum := by
  simp [putDirents, length_flatMap]

@[simp] theorem length_putUnits (us : List (UnitHash UInt64)) :
    (putUnits us).length = 2 + 24 * us.length := by
  simp [putUnits, putUnitHash, length_flatMap, mul_comm]

namespace Server

theorem readPayloads_le (s : Server) (sent : payload ∈ s.readPayloads hashChunk file seq b left) :
    payload.length ≤ s.maxFrame := by
  induction left generalizing b with
  | zero => cases sent
  | succ left ih =>
    rw [readPayloads] at sent
    rcases mem_cons.mp sent with rfl | later
    · simp [readAt, maxFrame]
      omega
    · split at later
      · cases later
      · exact ih later

/-- Every frame of a reply is within the limit of the peer, if and only if what
is sent in one frame is. -/
theorem payloads_le_iff (s : Server) (answer : Answer) :
    (∀ payload ∈ s.payloads answer, payload.length ≤ s.maxFrame) ↔ s.Fits answer := by
  cases answer with
  | readdir ents => simp [payloads, Fits, length_putDirents]
  | read hashChunk file seq b nBlocks =>
    exact iff_of_true (fun _ sent => s.readPayloads_le sent) trivial
  | readRange file seq b subOff subLen =>
    refine iff_of_true ?_ trivial
    intro payload sent
    simp only [payloads] at sent
    split at sent
    · rw [mem_singleton.mp sent]
      simp [maxFrame]
    · rw [mem_singleton.mp sent]
      simp [readAt, maxFrame]
      omega
  | write hash seq off n size mtimeNs =>
    simp only [payloads, Fits, writePayload, forall_mem_singleton]
    split_ifs
    · simp
    · simp
      omega
    · simp [length_flatMap]
      omega
  | fsync units =>
    refine iff_of_true ?_ trivial
    intro payload sent
    simp only [payloads] at sent
    split_ifs at sent
    · rw [mem_singleton.mp sent]
      exact zero_le _
    · rw [mem_singleton.mp sent]
      simp [maxFrame]
    · obtain ⟨frame, split_, rfl⟩ := mem_map.mp sent
      have few := length_splitFrames_le split_
      simp only [length_putUnits, maxPer, maxFrame] at few ⊢
      omega
  | _ =>
    simp [payloads, Fits, maxFrame]
    try omega

/-- 320 files with names of two letters. -/
def bigDirectory : List Dirent :=
  (List.range 320).map fun i => ⟨⟨0, 0, UInt64.ofNat i⟩, UInt64.ofNat (i + 1), 0,
    [UInt8.ofNat (97 + i / 26), UInt8.ofNat (97 + i % 26)]⟩

/-- The reply to a listing may pass the limit. -/
theorem bigDirectory_breaks : ¬∀ payload ∈ payloads ⟨4096, false, false, false⟩
    (.readdir bigDirectory), payload.length ≤ maxFrame ⟨4096, false, false, false⟩ := by
  decide +kernel

end Server

end Cornus.Wire.Msg
