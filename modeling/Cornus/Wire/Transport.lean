import Cornus.Lib.Cursor
import Cornus.Lib.Pieces

/-!
# Frames on the connection of a block mount

A frame is a fixed header and a payload, whose last part may leave in a write of
its own.  The reader takes the header with one full read and the payload with
one or more.
-/

namespace Cornus.Wire.Transport

open Lib.Cursor Lib.Pieces List Nat

/-- A frame of the block protocol. -/
structure Frame where
  op : UInt8
  flags : UInt8
  reqID : UInt64
  payload : List UInt8

def blockFrameHeader : Nat := 12

def smallBulkInline : Nat := 2048

variable (f : Frame) (total : Nat)

/-- The header of a frame whose length field is `total`. -/
def Frame.header : List UInt8 :=
  be 4 total ++ [f.op, f.flags, 0, 0] ++ be 8 f.reqID.toNat

/-- The writes of one frame. -/
def writeFrameParts (bulk : List UInt8) : List (List UInt8) :=
  let buf := f.header (blockFrameHeader + f.payload.length + bulk.length) ++ f.payload
  if 0 < bulk.length ∧ bulk.length ≤ smallBulkInline then [buf ++ bulk]
  else if 0 < bulk.length then [buf, bulk]
  else [buf]

/-- What stands before a payload. -/
structure FrameHeader where
  op : UInt8
  flags : UInt8
  reqID : UInt64
  plen : Nat

variable (maxPayload : Nat)

/-- `readFrameHeader`, which checks the length against the limit. -/
def readFrameHeader : Lib.Pieces.Reader FrameHeader := do
  let hdr ← readFull (4 + blockFrameHeader)
  let total := ofBe (hdr.take 4)
  if total < blockFrameHeader then throw (.other "blockproto: short frame")
  else if maxPayload < total - blockFrameHeader then throw (.other "blockproto: frame too large")
  else return ⟨hdr.getD 4 0, hdr.getD 5 0, .ofNat (ofBe (hdr.drop 8)), total - blockFrameHeader⟩

/-- `readFrame`: a header and its payload. -/
def readFrame : Lib.Pieces.Reader Frame := do
  let h ← readFrameHeader maxPayload
  if 0 < h.plen then return ⟨h.op, h.flags, h.reqID, ← readFull h.plen⟩
  else return ⟨h.op, h.flags, h.reqID, []⟩

/-- Full reads of the given sizes, one after the other. -/
def readParts : List Nat → Lib.Pieces.Reader (List UInt8)
  | [] => return []
  | size :: sizes => do
    let part ← readFull size
    return part ++ (← readParts sizes)

/-- A header, then the payload in reads whose sizes the reader chooses. -/
def readFrameIn (sizes : FrameHeader → List Nat) : Lib.Pieces.Reader Frame := do
  let h ← readFrameHeader maxPayload
  return ⟨h.op, h.flags, h.reqID, ← readParts (sizes h)⟩

variable (sent : Frame × List UInt8)

/-- The frame that is to be read back. -/
def whole : Frame :=
  { sent.1 with payload := sent.1.payload ++ sent.2 }

/-- The bytes of a frame on the wire. -/
def written : List UInt8 :=
  (writeFrameParts sent.1 sent.2).flatten

theorem written_eq :
    written sent = sent.1.header (blockFrameHeader + (whole sent).payload.length) ++
      (whole sent).payload := by
  rw [written, writeFrameParts, whole, length_append, ← add_assoc]
  split_ifs with small large
  · simp
  · simp
  · rw [length_eq_zero_iff.mp (Nat.eq_zero_of_not_pos large)]
    simp

theorem Frame.length_header : (f.header total).length = 4 + blockFrameHeader := by
  simp [header, blockFrameHeader]

section

variable {f : Frame} {maxPayload total : Nat} {pieces : List (List UInt8)}

theorem takes_hdr (f : Frame) (total : Nat) :
    Takes (readFull (4 + blockFrameHeader)) (f.header total) (f.header total) := by
  rw [← f.length_header total]
  exact takes_readFull _

theorem total_header (f : Frame) (total : Nat) :
    ofBe ((f.header total).take 4) = total % 256 ^ 4 := by
  rw [Frame.header, append_assoc, take_left' (length_be 4 total), ofBe_be]

theorem takes_header (fits : total % 256 ^ 4 ≤ blockFrameHeader + maxPayload)
    (full : blockFrameHeader ≤ total % 256 ^ 4) :
    Takes (readFrameHeader maxPayload) (f.header total)
      ⟨f.op, f.flags, f.reqID, total % 256 ^ 4 - blockFrameHeader⟩ := by
  rw [← append_nil (f.header total)]
  refine (takes_hdr f total).bind ?_
  rw [total_header, if_neg (by omega), if_neg (by omega)]
  have id : ofBe ((f.header total).drop 8) = f.reqID.toNat := by
    rw [Frame.header, drop_left' (by simp), ofBe_be]
    exact mod_eq_of_lt f.reqID.toNat_lt
  have fields : (f.header total).getD 4 0 = f.op ∧ (f.header total).getD 5 0 = f.flags := by
    simp [Frame.header, getD_eq_getElem?_getD]
  rw [id, fields.1, fields.2, UInt64.ofNat_toNat]
  exact .pure

/-- The two ways a frame is read. -/
def FrameReader (maxPayload : Nat) (get : Lib.Pieces.Reader Frame) : Prop :=
  get = readFrame maxPayload ∨
    ∃ sizes, (∀ h, (sizes h).sum = h.plen) ∧ get = readFrameIn maxPayload sizes

theorem takes_readParts (sizes : List Nat) : ∀ payload : List UInt8, sizes.sum = payload.length →
      Takes (readParts sizes) payload payload := by
  induction sizes with
  | nil =>
    intro payload all
    rw [length_eq_zero_iff.mp all.symm]
    exact .pure
  | cons size sizes ih =>
    intro payload all
    rw [sum_cons] at all
    have first := takes_readFull (payload.take size)
    rw [length_take_of_le (by omega)] at first
    have rest := ih (payload.drop size) (by rw [length_drop]; omega)
    rw [← take_append_drop size payload]
    exact first.bind (rest.map (payload.take size ++ ·))

variable {sent : Frame × List UInt8} {get : Lib.Pieces.Reader Frame}

theorem FrameReader.takes (reader : FrameReader maxPayload get)
    (fits : (whole sent).payload.length ≤ maxPayload)
    (short : blockFrameHeader + (whole sent).payload.length < 256 ^ 4) :
    Takes get (written sent) (whole sent) := by
  rw [written_eq]
  have same := mod_eq_of_lt short
  have head : Takes (readFrameHeader maxPayload) (sent.1.header _) _ :=
    takes_header (by rw [same]; omega) (by rw [same]; omega)
  rw [same, Nat.add_sub_cancel_left] at head
  rcases reader with rfl | ⟨sizes, sums, rfl⟩
  · refine head.bind ?_
    split_ifs with some_
    · exact (takes_readFull _).map fun payload => { sent.1 with payload }
    have none_ := length_eq_zero_iff.mp (Nat.eq_zero_of_not_pos some_)
    have empty : whole sent = { sent.1 with payload := [] } := by
      rw [← none_]
      rfl
    rw [empty]
    exact .pure
  · have parts := takes_readParts _ (whole sent).payload
      (sums ⟨sent.1.op, sent.1.flags, sent.1.reqID, (whole sent).payload.length⟩)
    exact head.bind (parts.map fun payload => { sent.1 with payload })

theorem FrameReader.fails (reader : FrameReader maxPayload get) {e}
    (failed : readFrameHeader maxPayload pieces = .error e) : get pieces = .error e := by
  rcases reader with rfl | ⟨sizes, _, rfl⟩ <;>
    simp [readFrame, readFrameIn, Bind.bind, StateT.bind, Except.bind, failed]

theorem readFrameHeader_large {hdr rest : List UInt8} (length : hdr.length = 4 + blockFrameHeader)
    (large : blockFrameHeader + maxPayload < ofBe (hdr.take 4))
    (arrive : pieces.flatten = hdr ++ rest) :
    readFrameHeader maxPayload pieces = .error (.other "blockproto: frame too large") := by
  obtain ⟨later, got, _⟩ := (takes_readFull hdr).whole pieces rest arrive
  rw [length] at got
  simp only [readFrameHeader, Bind.bind, StateT.bind, Except.bind, got]
  rw [if_neg (by omega), if_pos (by omega)]
  rfl

theorem FrameReader.cut {more : List UInt8} (reader : FrameReader maxPayload get)
    (short : blockFrameHeader + (whole sent).payload.length < 256 ^ 4)
    (arrive : pieces.flatten ++ more = written sent) (missing : more ≠ []) :
    ∃ e, get pieces = .error e := by
  by_cases fits : (whole sent).payload.length ≤ maxPayload
  · rcases (reader.takes fits short).cut pieces more arrive missing with ended | ended
    · exact ⟨_, ended⟩
    · exact ⟨_, ended⟩
  · rw [written_eq] at arrive
    have refused : ∀ rest, pieces.flatten =
        sent.1.header (blockFrameHeader + (whole sent).payload.length) ++ rest →
        ∃ e, get pieces = .error e := by
      intro rest early
      refine ⟨_, reader.fails (readFrameHeader_large (Frame.length_header _ _) ?_ early)⟩
      rw [total_header, mod_eq_of_lt short]
      omega
    rcases cut_append arrive with ⟨part, early, none_⟩ | ⟨part, early, -⟩
    · have failed : ∃ e, readFrameHeader maxPayload pieces = .error e := by
        rcases (takes_hdr _ _).cut pieces part early none_ with ended | ended <;>
          simp [readFrameHeader, Bind.bind, StateT.bind, Except.bind, ended]
      exact failed.imp fun _ => reader.fails
    · exact refused part early

/-- Frames arrive in order, through either reader and in any pieces.  A next
frame that is cut short, or announces too much, is an error. -/
theorem frames_transported {steps : List ((Frame × List UInt8) × Lib.Pieces.Reader Frame)}
    {next : List UInt8} (readers : ∀ step ∈ steps, FrameReader maxPayload step.2)
    (fits : ∀ step ∈ steps, (whole step.1).payload.length ≤ maxPayload)
    (short : ∀ step ∈ steps, blockFrameHeader + (whole step.1).payload.length < 2 ^ 32)
    (arrive : pieces.flatten = (steps.flatMap fun step => written step.1) ++ next)
    (reader : FrameReader maxPayload get) :
    ∃ later, inTurn (steps.map Prod.snd) pieces = .ok (steps.map fun step => whole step.1, later) ∧
      later.flatten = next ∧ (∀ sent more, blockFrameHeader + (whole sent).payload.length < 2 ^ 32 →
        next ++ more = written sent → more ≠ [] → ∃ e, get later = .error e) ∧
      ∀ hdr rest, hdr.length = 4 + blockFrameHeader → next = hdr ++ rest →
        blockFrameHeader + maxPayload < ofBe (hdr.take 4) →
        get later = .error (.other "blockproto: frame too large") := by
  have taken : Takes (inTurn (steps.map Prod.snd)) _ _ := takes_inTurn fun step member =>
    (readers step member).takes (fits step member) (short step member)
  obtain ⟨later, got, left⟩ := taken.whole pieces next arrive
  refine ⟨later, got, left, ?_, ?_⟩
  · intro sent more small same missing
    exact reader.cut small (by rw [left, same]) missing
  · intro hdr rest length same large
    exact reader.fails (readFrameHeader_large length large (by rw [left, same]))

end

/-- A frame whose bulk leaves inline, one whose bulk does not, and an empty one. -/
def threeFrames : List ((Frame × List UInt8) × Lib.Pieces.Reader Frame) :=
  [((⟨1, 2, 3, [4]⟩, [5]), readFrame 4096),
    ((⟨6, 0, 7, [8]⟩, replicate 2049 0), readFrameIn 4096 fun h =>
      [h.plen / 2, h.plen - h.plen / 2]),
    ((⟨0, 0, 0, []⟩, []), readFrame 4096)]

theorem threeFrames_transported :
    ∃ later, inTurn (threeFrames.map Prod.snd) [threeFrames.flatMap fun step => written step.1] =
      .ok (threeFrames.map fun step => whole step.1, later) := by
  have readers : ∀ step ∈ threeFrames, FrameReader 4096 step.2 := by
    simp only [threeFrames, forall_mem_cons]
    refine ⟨.inl rfl, .inr ⟨_, ?_, rfl⟩, .inl rfl, by simp⟩
    intro h
    rw [sum_cons, sum_singleton]
    omega
  obtain ⟨later, got, _⟩ := frames_transported readers (by decide +kernel) (by decide +kernel)
    (by rw [flatten_singleton, append_nil]) (.inl rfl)
  exact ⟨later, got⟩

theorem readFrame_wrapped {payload : List UInt8} (length : payload.length = 2 ^ 32) :
    ∃ later, readFrame 0 (writeFrameParts ⟨0, 0, 0, payload⟩ []) = .ok (⟨0, 0, 0, []⟩, later) := by
  have head : Takes (readFrameHeader 0) (Frame.header ⟨0, 0, 0, payload⟩ _) _ :=
    @takes_header _ _ (blockFrameHeader + 2 ^ 32) (by decide) (by decide)
  have arrive := written_eq (⟨0, 0, 0, payload⟩, [])
  simp only [whole, append_nil, length] at arrive
  obtain ⟨later, got, _⟩ := head.whole _ _ arrive
  refine ⟨later, ?_⟩
  simp only [readFrame, Bind.bind, StateT.bind, Except.bind, got]
  rfl

/-- The length of 2^32 bytes is written as 0. -/
theorem hugePayload_dropped : ∃ payload : List UInt8, payload.length = 2 ^ 32 ∧ ∃ later,
      readFrame 0 (writeFrameParts ⟨0, 0, 0, payload⟩ []) = .ok (⟨0, 0, 0, []⟩, later) :=
  ⟨replicate (2 ^ 32) 0, length_replicate, readFrame_wrapped length_replicate⟩

end Cornus.Wire.Transport
