import Cornus.Lib.Cursor
import Cornus.Wire.BlockServer
import Mathlib.Data.Nat.Bitwise

/-!
# Message codecs of the block protocol

A `msgW` is the bytes appended to it; a `msgR` is a reader with a cursor.
-/

namespace Cornus.Wire.Msg

open Lib.Cursor List Nat

def u8 : Get UInt8 := do
  return .ofNat (← uint 1)

def u16 : Get UInt16 := do
  return .ofNat (← uint 2)

def u32 : Get UInt32 := do
  return .ofNat (← uint 4)

def u64 : Get UInt64 := do
  return .ofNat (← uint 8)

def i64 : Get Int64 := do
  return (← u64).toInt64

def boolean : Get Bool := do
  return (← u8) != 0

def putBoolean (v : Bool) : List UInt8 :=
  be 1 (if v then 1 else 0)

def blob : Get (List UInt8) := do
  read (← uint 4)

def putBlob (p : List UInt8) : List UInt8 :=
  be 4 p.length ++ p

/-- Strings are their bytes; the copy that `blob` does not make is not seen here. -/
def str : Get (List UInt8) :=
  blob

def putStr (text : List UInt8) : List UInt8 :=
  putBlob text

/-- The 9P identity of a file. -/
structure QID where
  type : UInt8
  version : UInt32
  path : UInt64
  deriving DecidableEq

def putQID (q : QID) : List UInt8 :=
  [be 1 q.type.toNat, be 4 q.version.toNat, be 8 q.path.toNat].flatten

def getQID : Get QID := do
  return { type := ← u8, version := ← u32, path := ← u64 }

def putQIDs (qids : List QID) : List UInt8 :=
  be 2 qids.length ++ qids.flatMap putQID

def getQIDs : Get (List QID) := do
  getMany getQID (← uint 2)

def set (value : Nat) (b : Bool) (bit : Nat) : Nat :=
  if b then value ||| 1 <<< bit else value

variable (bits : List Bool)

/-- The value built by one `set` for each flag, from bit 0 on. -/
def mask : Nat :=
  bits.zipIdx.foldl (fun value (b, bit) => set value b bit) 0

/-- Sixteen flags, by their bits. -/
def flags : Get (Nat → Bool) := do
  return (← uint 2).testBit

structure AttrMask where
  (mode nlink uid gid rdev atime mtime ctime ino size blocks btime gen dataVersion : Bool)
  deriving DecidableEq

def putAttrMask (m : AttrMask) : List UInt8 :=
  be 2 (mask [m.mode, m.nlink, m.uid, m.gid, m.rdev, m.atime, m.mtime, m.ctime, m.ino, m.size,
    m.blocks, m.btime, m.gen, m.dataVersion])

def getAttrMask : Get AttrMask := do
  let g ← flags
  return ⟨g 0, g 1, g 2, g 3, g 4, g 5, g 6, g 7, g 8, g 9, g 10, g 11, g 12, g 13⟩

structure Attr where
  (mode uid gid : UInt32)
  (nlink rdev size blockSize blocks atimeSeconds atimeNanoSeconds mtimeSeconds mtimeNanoSeconds
    ctimeSeconds ctimeNanoSeconds btimeSeconds btimeNanoSeconds gen dataVersion : UInt64)
  deriving DecidableEq

def putAttr (a : Attr) : List UInt8 :=
  [be 4 a.mode.toNat, be 4 a.uid.toNat, be 4 a.gid.toNat, be 8 a.nlink.toNat, be 8 a.rdev.toNat,
    be 8 a.size.toNat, be 8 a.blockSize.toNat, be 8 a.blocks.toNat, be 8 a.atimeSeconds.toNat,
    be 8 a.atimeNanoSeconds.toNat, be 8 a.mtimeSeconds.toNat, be 8 a.mtimeNanoSeconds.toNat,
    be 8 a.ctimeSeconds.toNat, be 8 a.ctimeNanoSeconds.toNat, be 8 a.btimeSeconds.toNat,
    be 8 a.btimeNanoSeconds.toNat, be 8 a.gen.toNat, be 8 a.dataVersion.toNat].flatten

def getAttr : Get Attr := do
  return ⟨← u32, ← u32, ← u32, ← u64, ← u64, ← u64, ← u64, ← u64, ← u64, ← u64, ← u64, ← u64, ← u64,
    ← u64, ← u64, ← u64, ← u64, ← u64⟩

structure SetAttrMask where
  (permissions uid gid size atime mtime ctime atimeNotSystemTime mtimeNotSystemTime : Bool)
  deriving DecidableEq

def putSetAttrMask (m : SetAttrMask) : List UInt8 :=
  be 2 (mask [m.permissions, m.uid, m.gid, m.size, m.atime, m.mtime, m.ctime,
    m.atimeNotSystemTime, m.mtimeNotSystemTime])

def getSetAttrMask : Get SetAttrMask := do
  let g ← flags
  return ⟨g 0, g 1, g 2, g 3, g 4, g 5, g 6, g 7, g 8⟩

structure SetAttr where
  (permissions uid gid : UInt32)
  (size atimeSeconds atimeNanoSeconds mtimeSeconds mtimeNanoSeconds : UInt64)
  deriving DecidableEq

def putSetAttr (a : SetAttr) : List UInt8 :=
  [be 4 a.permissions.toNat, be 4 a.uid.toNat, be 4 a.gid.toNat, be 8 a.size.toNat,
    be 8 a.atimeSeconds.toNat, be 8 a.atimeNanoSeconds.toNat, be 8 a.mtimeSeconds.toNat,
    be 8 a.mtimeNanoSeconds.toNat].flatten

def getSetAttr : Get SetAttr := do
  return ⟨← u32, ← u32, ← u32, ← u64, ← u64, ← u64, ← u64, ← u64⟩

structure FSStat where
  (type blockSize : UInt32)
  (blocks blocksFree blocksAvailable files filesFree fsid : UInt64)
  nameLength : UInt32
  deriving DecidableEq

def putFSStat (s : FSStat) : List UInt8 :=
  [be 4 s.type.toNat, be 4 s.blockSize.toNat, be 8 s.blocks.toNat, be 8 s.blocksFree.toNat,
    be 8 s.blocksAvailable.toNat, be 8 s.files.toNat, be 8 s.filesFree.toNat, be 8 s.fsid.toNat,
    be 4 s.nameLength.toNat].flatten

def getFSStat : Get FSStat := do
  return ⟨← u32, ← u32, ← u64, ← u64, ← u64, ← u64, ← u64, ← u64, ← u32⟩

structure Dirent where
  qid : QID
  offset : UInt64
  type : UInt8
  name : List UInt8
  deriving DecidableEq

def putDirent (e : Dirent) : List UInt8 :=
  [putQID e.qid, be 8 e.offset.toNat, be 1 e.type.toNat, putStr e.name].flatten

def getDirent : Get Dirent := do
  return ⟨← getQID, ← u64, ← u8, ← str⟩

def putDirents (ents : List Dirent) : List UInt8 :=
  be 4 ents.length ++ ents.flatMap putDirent

def getDirents : Get (List Dirent) := do
  getMany getDirent (← uint 4)

def putUnitHash (u : UnitHash UInt64) : List UInt8 :=
  [be 8 u.blockIdx, be 4 u.subOff, be 4 u.subLen, be 8 u.hash.toNat].flatten

/-- One turn of the loops that read a unit list. -/
def getUnitHash : Get (UnitHash UInt64) := do
  return ⟨← uint 8, ← uint 4, ← uint 4, ← u64⟩

/-- The units behind a count of 16 bits. -/
def putUnits (units : List (UnitHash UInt64)) : List UInt8 :=
  be 2 units.length ++ units.flatMap putUnitHash

def getUnits : Get (List (UnitHash UInt64)) := do
  getMany getUnitHash (← uint 2)

structure HelloParams where
  version : UInt16
  chunkSize : UInt32
  maxInflight : UInt16
  features : UInt32
  deriving DecidableEq

def marshal (h : HelloParams) : List UInt8 :=
  [be 2 h.version.toNat, be 4 h.chunkSize.toNat, be 2 h.maxInflight.toNat,
    be 4 h.features.toNat].flatten

def unmarshalHello : Get HelloParams := do
  return ⟨← u16, ← u32, ← u16, ← u32⟩

/-- What a caller may ask a reader for. -/
inductive Call
  | uint (width : Nat)
  | int
  | boolean
  | blob
  | name
  | qids
  | attrMask
  | attr
  | setAttr
  | fsStat
  | dirents
  | units
  | hello

/-- What a caller may put into a message. -/
inductive Value
  | uint (width value : Nat)
  | int (v : Int64)
  | boolean (v : Bool)
  | blob (p : List UInt8)
  | name (text : List UInt8)
  | qids (ids : List QID)
  | attrMask (m : AttrMask)
  | attr (a : Attr)
  | setAttr (m : SetAttrMask) (a : SetAttr)
  | fsStat (s : FSStat)
  | dirents (ents : List Dirent)
  | units (us : List (UnitHash UInt64))
  | hello (h : HelloParams)

namespace Value

def call : Value → Call
  | uint width _ => .uint width
  | int _ => .int
  | boolean _ => .boolean
  | blob _ => .blob
  | name _ => .name
  | qids _ => .qids
  | attrMask _ => .attrMask
  | attr _ => .attr
  | setAttr _ _ => .setAttr
  | fsStat _ => .fsStat
  | dirents _ => .dirents
  | units _ => .units
  | hello _ => .hello

def put : Value → List UInt8
  | uint width value => be width value
  | int v => be 8 v.toUInt64.toNat
  | boolean v => putBoolean v
  | blob p => putBlob p
  | name text => putStr text
  | qids ids => putQIDs ids
  | attrMask m => putAttrMask m
  | attr a => putAttr a
  | setAttr m a => putSetAttrMask m ++ putSetAttr a
  | fsStat s => putFSStat s
  | dirents ents => putDirents ents
  | units us => putUnits us
  | hello h => marshal h

/-- What the counts and the fixed widths of the messages can hold. -/
def Fits : Value → Prop
  | uint width value => value < 2 ^ (8 * width)
  | blob p => p.length < 2 ^ 32
  | name text => text.length < 65536
  | qids ids => ids.length < 65536
  | dirents ents => ents.length < 2 ^ 32 ∧ ∀ e ∈ ents, e.name.length < 2 ^ 32
  | units us => us.length < 65536 ∧
      ∀ u ∈ us, u.blockIdx < 2 ^ 64 ∧ u.subOff < 2 ^ 32 ∧ u.subLen < 2 ^ 32
  | _ => True

end Value

def Call.get : Call → Get Value
  | uint width => do return .uint width (← Lib.Cursor.uint width)
  | int => do return .int (← i64)
  | boolean => do return .boolean (← Msg.boolean)
  | blob => do return .blob (← Msg.blob)
  | name => do return .name (← str)
  | qids => do return .qids (← getQIDs)
  | attrMask => do return .attrMask (← getAttrMask)
  | attr => do return .attr (← getAttr)
  | setAttr => do return .setAttr (← getSetAttrMask) (← getSetAttr)
  | fsStat => do return .fsStat (← getFSStat)
  | dirents => do return .dirents (← getDirents)
  | units => do return .units (← getUnits)
  | hello => do return .hello (← unmarshalHello)

/-- The bytes of a message. -/
def encode (values : List Value) : List UInt8 :=
  values.flatMap Value.put

/-- One call of the reader after the other. -/
def getAll : List Call → Get (List Value)
  | [] => return []
  | call :: calls => do
    let value ← call.get
    let values ← getAll calls
    return value :: values

variable (width : Nat)

theorem reads_uint_of_lt (small : value < 2 ^ (8 * width)) :
    Reads (uint width) (be width value) value := by
  rw [Nat.pow_mul] at small
  simpa only [Nat.mod_eq_of_lt small] using reads_uint width value

theorem reads_u8 (value : UInt8) : Reads u8 (be 1 value.toNat) value := by
  have reads := (reads_uint_of_lt 1 value.toNat_lt).map UInt8.ofNat
  rwa [UInt8.ofNat_toNat] at reads

theorem reads_u16 (value : UInt16) : Reads u16 (be 2 value.toNat) value := by
  have reads := (reads_uint_of_lt 2 value.toNat_lt).map UInt16.ofNat
  rwa [UInt16.ofNat_toNat] at reads

theorem reads_u32 (value : UInt32) : Reads u32 (be 4 value.toNat) value := by
  have reads := (reads_uint_of_lt 4 value.toNat_lt).map UInt32.ofNat
  rwa [UInt32.ofNat_toNat] at reads

theorem reads_u64 (value : UInt64) : Reads u64 (be 8 value.toNat) value := by
  have reads := (reads_uint_of_lt 8 value.toNat_lt).map UInt64.ofNat
  rwa [UInt64.ofNat_toNat] at reads

theorem reads_i64 (value : Int64) : Reads i64 (be 8 value.toUInt64.toNat) value := by
  have reads := (reads_u64 value.toUInt64).map UInt64.toInt64
  rwa [Int64.toInt64_toUInt64] at reads

theorem reads_boolean (value : Bool) : Reads boolean (putBoolean value) value := by
  cases value
  · exact (reads_u8 0).map (· != 0)
  · exact (reads_u8 1).map (· != 0)

theorem reads_blob (short : p.length < 2 ^ 32) : Reads blob (putBlob p) p :=
  (reads_uint_of_lt 4 short).bind (reads_read p)

theorem reads_counted {α : Type} {get : Get α} {put : α → List UInt8} {items : List α}
    (few : items.length < 2 ^ (8 * width)) (each : ∀ item ∈ items, Reads get (put item) item) :
    Reads (do getMany get (← uint width)) (be width items.length ++ items.flatMap put) items := by
  have all := (reads_uint_of_lt width few).bind (reads_getMany (f := id) each)
  rwa [map_id] at all

theorem reads_qid (q : QID) : Reads getQID (putQID q) q :=
  (reads_u8 _).bind ((reads_u32 _).bind ((reads_u64 _).bind .pure))

theorem reads_attr (a : Attr) : Reads getAttr (putAttr a) a := by
  iterate 3 refine (reads_u32 _).bind ?_
  iterate 15 refine (reads_u64 _).bind ?_
  exact .pure

theorem reads_setAttr (a : SetAttr) : Reads getSetAttr (putSetAttr a) a := by
  iterate 3 refine (reads_u32 _).bind ?_
  iterate 5 refine (reads_u64 _).bind ?_
  exact .pure

theorem reads_fsStat (s : FSStat) : Reads getFSStat (putFSStat s) s := by
  iterate 2 refine (reads_u32 _).bind ?_
  iterate 6 refine (reads_u64 _).bind ?_
  exact (reads_u32 _).bind .pure

theorem reads_dirent (short : e.name.length < 2 ^ 32) : Reads getDirent (putDirent e) e :=
  (reads_qid _).bind ((reads_u64 _).bind ((reads_u8 _).bind ((reads_blob short).bind .pure)))

theorem reads_unitHash (index : u.blockIdx < 2 ^ 64)
    (off : u.subOff < 2 ^ 32) (len : u.subLen < 2 ^ 32) : Reads getUnitHash (putUnitHash u) u :=
  (reads_uint_of_lt 8 index).bind ((reads_uint_of_lt 4 off).bind
    ((reads_uint_of_lt 4 len).bind ((reads_u64 _).bind .pure)))

theorem reads_hello (h : HelloParams) : Reads unmarshalHello (marshal h) h :=
  (reads_u16 _).bind ((reads_u32 _).bind ((reads_u16 _).bind ((reads_u32 _).bind .pure)))

theorem testBit_set (value : Nat) (b : Bool) (bit other : Nat) :
    (set value b bit).testBit other = (value.testBit other || b && decide (bit = other)) := by
  cases b with
  | false => simp [set]
  | true => simp [set, one_shiftLeft, testBit_two_pow]

theorem testBit_foldl_set (start value bit : Nat) :
    ((bits.zipIdx start).foldl (fun value (b, bit) => set value b bit) value).testBit bit =
      (value.testBit bit || decide (start ≤ bit) && bits.getD (bit - start) false) := by
  induction bits generalizing start value with
  | nil => simp
  | cons b bits ih =>
    rw [zipIdx_cons, foldl_cons, ih, testBit_set]
    rcases lt_trichotomy start bit with below | rfl | above
    · obtain ⟨more, rfl⟩ := Nat.exists_eq_add_of_lt below
      simp [show start + more + 1 - start = more + 1 by omega, show start ≤ start + more + 1 by
          omega,
        show start + more + 1 - (start + 1) = more by omega, below.ne]
    · simp
    · simp [above.ne', show ¬start ≤ bit by omega, show ¬start + 1 ≤ bit by omega]

theorem reads_flags (few : bits.length ≤ 16) :
    Reads flags (be 2 (mask bits)) (bits.getD · false) := by
  have same : (mask bits % 256 ^ 2).testBit = (bits.getD · false) := by
    funext bit
    rw [show 256 ^ 2 = 2 ^ 16 from rfl, testBit_mod_two_pow, mask, testBit_foldl_set]
    by_cases low : bit < 16
    · simp [low]
    · simp [low, getElem?_eq_none (show bits.length ≤ bit by omega)]
  exact same ▸ (reads_uint 2 (mask bits)).map testBit

theorem reads_attrMask (m : AttrMask) : Reads getAttrMask (putAttrMask m) m := by
  rw [← append_nil (putAttrMask m)]
  exact (reads_flags _ (by simp)).bind .pure

theorem reads_setAttrMask (m : SetAttrMask) : Reads getSetAttrMask (putSetAttrMask m) m := by
  rw [← append_nil (putSetAttrMask m)]
  exact (reads_flags _ (by simp)).bind .pure

theorem Value.reads {value : Value} (fits : value.Fits) : Reads value.call.get value.put value := by
  cases value with
  | uint width value => exact (reads_uint_of_lt width fits).map _
  | int v => exact (reads_i64 v).map _
  | boolean v => exact (reads_boolean v).map _
  | blob p => exact (reads_blob fits).map _
  | name text => exact (reads_blob (fits.trans (by decide))).map _
  | qids ids => exact (reads_counted 2 fits fun q _ => reads_qid q).map _
  | attrMask m => exact (reads_attrMask m).map _
  | attr a => exact (reads_attr a).map _
  | setAttr m a => exact (reads_setAttrMask m).bind ((reads_setAttr a).map _)
  | fsStat s => exact (reads_fsStat s).map _
  | dirents ents =>
    exact (reads_counted 4 fits.1 fun e mem => reads_dirent (fits.2 e mem)).map _
  | units us =>
    refine (reads_counted 2 fits.1 fun u mem => ?_).map _
    obtain ⟨index, off, len⟩ := fits.2 u mem
    exact reads_unitHash index off len
  | hello h => exact (reads_hello h).map _

theorem safe_u8 : Safe u8 := (safe_uint 1).map _

theorem safe_u16 : Safe u16 := (safe_uint 2).map _

theorem safe_u32 : Safe u32 := (safe_uint 4).map _

theorem safe_u64 : Safe u64 := (safe_uint 8).map _

theorem safe_blob : Safe blob := (safe_uint 4).bind safe_read

theorem safe_counted {α : Type} {get : Get α} (safe : Safe get) :
    Safe (do getMany get (← uint width)) :=
  (safe_uint width).bind (safe_getMany safe)

theorem safe_qid : Safe getQID := safe_u8.bind fun _ => safe_u32.bind fun _ => safe_u64.map _

theorem safe_flags : Safe flags := (safe_uint 2).map _

theorem Call.safe (call : Call) : Safe call.get := by
  cases call with
  | uint width => exact (safe_uint width).map _
  | int => exact (safe_u64.map _).map _
  | boolean => exact (safe_u8.map _).map _
  | blob | name => exact safe_blob.map _
  | qids => exact (safe_counted 2 safe_qid).map _
  | attrMask => exact (safe_flags.map _).map _
  | attr =>
    refine Safe.map ?_ _
    iterate 3 refine safe_u32.bind fun _ => ?_
    iterate 14 refine safe_u64.bind fun _ => ?_
    exact safe_u64.map _
  | setAttr =>
    refine (safe_flags.map _).bind fun _ => Safe.map ?_ _
    iterate 3 refine safe_u32.bind fun _ => ?_
    iterate 4 refine safe_u64.bind fun _ => ?_
    exact safe_u64.map _
  | fsStat =>
    refine Safe.map ?_ _
    iterate 2 refine safe_u32.bind fun _ => ?_
    iterate 6 refine safe_u64.bind fun _ => ?_
    exact safe_u32.map _
  | dirents =>
    refine (safe_counted 4 ?_).map _
    exact safe_qid.bind fun _ => safe_u64.bind fun _ => safe_u8.bind fun _ => safe_blob.map _
  | units =>
    refine (safe_counted 2 ?_).map _
    exact (safe_uint 8).bind fun _ => (safe_uint 4).bind fun _ => (safe_uint 4).bind fun _ =>
      safe_u64.map _
  | hello =>
    refine Safe.map ?_ _
    exact safe_u16.bind fun _ => safe_u32.bind fun _ => safe_u16.bind fun _ => safe_u32.map _

theorem safe_getAll (calls : List Call) : Safe (getAll calls) := by
  induction calls with
  | nil => exact .pure
  | cons call calls ih => exact call.safe.bind fun value => ih.map (value :: ·)

/-- A message of values that fit is read back by one call for each. -/
theorem getAll_encode {values : List Value} (fits : ∀ value ∈ values, value.Fits) :
    Reads (getAll (values.map Value.call)) (encode values) values := by
  induction values with
  | nil => exact .pure
  | cons value values ih =>
    rw [forall_mem_cons] at fits
    exact (value.reads fits.1).bind ((ih fits.2).map (value :: ·))

/-- A value that fits is read back from its place among others, and no sequence
of calls on any buffer reads outside it or clears an error. -/
theorem codec_roundTrip (front rest : List Value) {value : Value} (fits : value.Fits)
    (calls : List Call) (r : Input) :
    value.call.get ⟨encode (front ++ value :: rest), (encode front).length, false⟩ =
        some (value, ⟨encode (front ++ value :: rest), (encode (front ++ [value])).length, false⟩) ∧
      ∃ values later, getAll calls r = some (values, later) ∧
        (r.off ≤ r.b.length → later.off ≤ r.b.length) ∧ (r.err = true → later.err = true) := by
  constructor
  · have reads := value.reads fits (encode front) (encode rest)
    simpa [encode, flatMap_append] using reads
  · obtain ⟨values, later, got, kept⟩ := safe_getAll calls r
    exact ⟨values, later, got, kept.inside, kept.error⟩

/-- A flag, a message with one unit and a name. -/
def unitMessage : List Value :=
  [.boolean true, .units [⟨3, 4096, 4096, 7⟩], .name [99]]

theorem unit_roundTrip : (Value.units [⟨3, 4096, 4096, 7⟩]).Fits ∧
    Call.units.get ⟨encode unitMessage, 1, false⟩ =
        some (.units [⟨3, 4096, 4096, 7⟩], ⟨encode unitMessage, 27, false⟩) ∧
      ∃ values later, getAll [.name, .uint 8] ⟨[0, 0, 0, 9], 0, false⟩ = some (values, later) ∧
        later.off ≤ 4 := by
  have fits : (Value.units [⟨3, 4096, 4096, 7⟩]).Fits := by simp [Value.Fits]
  obtain ⟨placed, values, later, got, inside, _⟩ := codec_roundTrip [.boolean true]
    [.name [99]] fits [.name, .uint 8] ⟨[0, 0, 0, 9], 0, false⟩
  exact ⟨fits, placed, values, later, got, inside (by decide)⟩

/-- An offset of 2^32 is written in four bytes. -/
theorem wideOffset_narrowed :
    (getUnits ⟨putUnits [⟨0, 2 ^ 32, 0, 0⟩], 0, false⟩).map (fun got => got.1.map UnitHash.subOff) =
      some [0] := by
  decide +kernel

end Cornus.Wire.Msg
