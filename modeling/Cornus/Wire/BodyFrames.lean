import Cornus.Lib.Cursor
import Cornus.Lib.Pieces

/-!
# The framed body of a file operation

A body goes out as chunk frames behind which an empty frame stands.  One reader
pushes what it reads to a destination, the other is pulled from with buffers of
any size.
-/

namespace Cornus.Wire.FsOp

open Lib.Cursor Lib.Pieces List

/-- The limit on the length of a frame. -/
def fSOpMaxFrame : Nat := 8 * 2 ^ 20

def fsopChunk : Nat := 64 * 2 ^ 10

def tooLarge (n : Nat) : String :=
  s!"fsop: frame of {n} bytes exceeds the {fSOpMaxFrame} limit"

/-- A frame behind its length. -/
def writeFSOpFrame (b : List UInt8) : Except String (List UInt8) :=
  if fSOpMaxFrame < b.length then .error (tooLarge b.length) else .ok (be 4 b.length ++ b)

/-- The next frame of a stream. -/
def readFSOpFrame : Lib.Pieces.Reader (List UInt8) := do
  let n := ofBe (← readFull 4)
  if fSOpMaxFrame < n then throw (.other (tooLarge n)) else readFull n

/-- The body writer, by what each read of its source gets before the end. -/
def writeFSOpBody : List (List UInt8) → Except String (List UInt8)
  | [] => writeFSOpFrame []
  | got :: reads =>
    if 0 < got.length then do
      let frame ← writeFSOpFrame got
      return frame ++ (← writeFSOpBody reads)
    else writeFSOpBody reads

/-- How a body ends: at its terminator, with what is left of the stream, or with
an error. -/
inductive BodyEnd
  | done (left : List (List UInt8))
  | truncated
  | failed (text : String)

def ended : Lib.Pieces.ReadError → BodyEnd
  | .other text => .failed text
  | _ => .truncated

variable {r left : List (List UInt8)} {chunk : List UInt8}

theorem shorter_of_frame (read : readFSOpFrame r = .ok (chunk, left)) :
    left.flatten.length < r.flatten.length := by
  simp only [readFSOpFrame, Bind.bind, StateT.bind, Except.bind] at read
  split at read
  · cases read
  rename_i hdr header
  have first := (readFull_left header).2
  split_ifs at read
  · cases read
  · have second := (readFull_left read).2
    omega

/-- What is written to the destination, and how the body ends. -/
def readFSOpBody (r : List (List UInt8)) : List UInt8 × BodyEnd :=
  match _read : readFSOpFrame r with
  | .error err => ([], ended err)
  | .ok (chunk, left) =>
    if chunk = [] then ([], .done left)
    else
      let rest := readFSOpBody left
      (chunk ++ rest.1, rest.2)
  termination_by r.flatten.length
  decreasing_by exact shorter_of_frame _read

/-- The reader of a body, and what is left of its frame. -/
structure FsopBody where
  r : List (List UInt8)
  buf : List UInt8 := []
  done : Bool := false
  err : Option BodyEnd := none

def fSOpBodyReader (r : List (List UInt8)) : FsopBody :=
  { r }

variable (b : FsopBody)

/-- What a reader has reported: the end, an error, or neither yet. -/
def FsopBody.status : Option BodyEnd :=
  if b.done then some (.done b.r) else b.err

/-- The loop of `Read`: it ends after a chunk that is not empty. -/
def FsopBody.fill : FsopBody :=
  if b.buf ≠ [] ∨ b.status.isSome then b
  else
    match readFSOpFrame b.r with
    | .error err => { b with err := some (ended err) }
    | .ok (chunk, left) =>
      if chunk = [] then { b with r := left, done := true } else { b with r := left, buf := chunk }

/-- One `Read` with a buffer of `n` bytes; if it gets none of them, it returns the
status of the state it leaves. -/
def FsopBody.read (n : Nat) : List UInt8 × FsopBody :=
  (b.fill.buf.take n, { b.fill with buf := b.fill.buf.drop n })

def FsopBody.reads (b : FsopBody) : List Nat → List UInt8 × FsopBody
  | [] => ([], b)
  | n :: sizes =>
    let first := b.read n
    let rest := first.2.reads sizes
    (first.1 ++ rest.1, rest.2)

theorem readFSOpBody_error {err} (read : readFSOpFrame r = .error err) :
    readFSOpBody r = ([], ended err) := by
  rw [readFSOpBody]
  split <;> simp_all

theorem readFSOpBody_ok (read : readFSOpFrame r = .ok (chunk, left)) :
    readFSOpBody r = if chunk = [] then ([], .done left)
      else (chunk ++ (readFSOpBody left).1, (readFSOpBody left).2) := by
  rw [readFSOpBody]
  split <;> simp_all

/-- The reading of a framed body, whole or cut. -/
structure Framed (stream body : List UInt8) : Prop where
  whole : ∀ r rest, r.flatten = stream ++ rest →
    ∃ left, readFSOpBody r = (body, .done left) ∧ left.flatten = rest
  cut : ∀ r more, r.flatten ++ more = stream → more ≠ [] → ∃ out, readFSOpBody r = (out, .truncated)

theorem takes_frame (small : chunk.length ≤ fSOpMaxFrame) :
    Takes readFSOpFrame (be 4 chunk.length ++ chunk) chunk := by
  have header := takes_readFull (be 4 chunk.length)
  rw [length_be] at header
  refine header.bind ?_
  have length : ofBe (be 4 chunk.length) = chunk.length := by
    rw [ofBe_be, Nat.mod_eq_of_lt]
    exact Nat.lt_of_le_of_lt small (by decide)
  rw [length, if_neg (Nat.not_lt.mpr small)]
  exact takes_readFull chunk

theorem truncated_of_cut (takes : Takes readFSOpFrame bytes chunk)
    (same : r.flatten ++ more = bytes) (missing : more ≠ []) :
    ∃ out, readFSOpBody r = (out, .truncated) := by
  rcases takes.cut r more same missing with ended | ended <;> exact ⟨_, readFSOpBody_error ended⟩

theorem Framed.terminator : Framed (be 4 0) [] where
  whole r rest same := by
    obtain ⟨left, read, remains⟩ := (@takes_frame [] (Nat.zero_le _)).whole r rest same
    exact ⟨left, by rw [readFSOpBody_ok read, if_pos rfl], remains⟩
  cut _ _ same missing := truncated_of_cut (@takes_frame [] (Nat.zero_le _)) same missing

theorem Framed.cons (framed : Framed stream body)
    (some_ : chunk ≠ []) (small : chunk.length ≤ fSOpMaxFrame) :
    Framed (be 4 chunk.length ++ chunk ++ stream) (chunk ++ body) where
  whole r rest same := by
    rw [append_assoc] at same
    obtain ⟨middle, read, remains⟩ := (takes_frame small).whole r _ same
    obtain ⟨left, later, ends⟩ := framed.whole middle rest remains
    exact ⟨left, by rw [readFSOpBody_ok read, if_neg some_, later], ends⟩
  cut r more same missing := by
    rcases cut_append same with ⟨part, early, none_⟩ | ⟨part, early, late⟩
    · exact truncated_of_cut (takes_frame small) early none_
    obtain ⟨middle, read, remains⟩ := (takes_frame small).whole r part early
    obtain ⟨out, later⟩ := framed.cut middle more (by rw [remains, late]) missing
    exact ⟨chunk ++ out, by rw [readFSOpBody_ok read, if_neg some_, later]⟩

theorem framed_of_reads {reads : List (List UInt8)}
    (small : ∀ got ∈ reads, got.length ≤ fsopChunk) :
    ∃ stream, writeFSOpBody reads = .ok stream ∧ Framed stream reads.flatten := by
  induction reads with
  | nil => exact ⟨be 4 0, rfl, .terminator⟩
  | cons got reads ih =>
    obtain ⟨stream, wrote, framed⟩ := ih fun other mem => small other (mem_cons_of_mem _ mem)
    have fits : got.length ≤ fSOpMaxFrame := Nat.le_trans (small got mem_cons_self) (by decide)
    rw [writeFSOpBody]
    split_ifs with some_
    · refine ⟨_, ?_, framed.cons (ne_nil_of_length_pos some_) fits⟩
      rw [writeFSOpFrame, if_neg (Nat.not_lt.mpr fits), wrote]
      rfl
    · rw [length_eq_zero_iff.mp (Nat.eq_zero_of_not_pos some_)]
      exact ⟨stream, wrote, framed⟩

/-! ## The reader that is pulled from -/

variable {b : FsopBody}

variable (b)

/-- What is still to come out of a reader. -/
def FsopBody.rest : List UInt8 × BodyEnd :=
  match b.status with
  | some fin => (b.buf, fin)
  | none => (b.buf ++ (readFSOpBody b.r).1, (readFSOpBody b.r).2)

/-- A step changes nothing of what is to come, keeps the buffer of a reader that
has reported an end empty, and does not take the report back. -/
structure FsopBody.Goes (got : List UInt8) (next : FsopBody) : Prop where
  rest : b.rest = (got ++ next.rest.1, next.rest.2)
  tidy : (b.status ≠ none → b.buf = []) → next.status ≠ none → next.buf = []
  stays : next.status = none → b.status = none

theorem FsopBody.goes_fill : b.Goes [] b.fill ∧ (b.fill.status = none → b.fill.buf ≠ []) := by
  by_cases ready : b.buf ≠ [] ∨ b.status.isSome
  · rw [fill, if_pos ready]
    refine ⟨⟨rfl, id, id⟩, fun open_ => ready.resolve_right ?_⟩
    rw [open_]
    exact Bool.false_ne_true
  obtain ⟨r, buf, done, err⟩ := b
  obtain ⟨empty, silent⟩ := not_or.mp ready
  obtain rfl := not_not.mp empty
  cases done with
  | true => exact absurd rfl silent
  | false =>
    obtain rfl : err = none := Option.not_isSome_iff_eq_none.mp silent
    cases frame : readFSOpFrame r with
    | error err =>
      have step : fill ⟨r, [], false, none⟩ = ⟨r, [], false, some (ended err)⟩ := by
        simp [fill, status, frame]
      rw [step]
      exact ⟨⟨readFSOpBody_error frame, fun _ _ => rfl, fun none_ => by cases none_⟩,
        fun none_ => by cases none_⟩
    | ok got =>
      obtain ⟨chunk, left⟩ := got
      have body := readFSOpBody_ok frame
      by_cases last : chunk = []
      · have step : fill ⟨r, [], false, none⟩ = ⟨left, [], true, none⟩ := by
          simp [fill, status, frame, last]
        rw [if_pos last] at body
        rw [step]
        exact ⟨⟨body, fun _ _ => rfl, fun none_ => by cases none_⟩, fun none_ => by cases none_⟩
      · have step : fill ⟨r, [], false, none⟩ = ⟨left, chunk, false, none⟩ := by
          simp [fill, status, frame, last]
        rw [if_neg last] at body
        rw [step]
        exact ⟨⟨body, fun _ more => absurd rfl more, fun _ => rfl⟩, fun _ => last⟩

theorem FsopBody.goes_read (n : Nat) : b.Goes (b.read n).1 (b.read n).2 ∧
    (0 < n → (b.read n).2.status = none → (b.read n).1 ≠ []) := by
  obtain ⟨goes, some_⟩ := b.goes_fill
  have same : (b.read n).2.status = b.fill.status := rfl
  refine ⟨⟨?_, ?_, goes.stays⟩, ?_⟩
  · rw [goes.rest, nil_append, rest, rest, same]
    cases b.fill.status with
    | none => simp [read, ← append_assoc]
    | some fin => simp [read]
  · intro tidy more
    rw [read, goes.tidy tidy more, drop_nil]
  · intro positive open_
    rw [read, Ne, take_eq_nil_iff]
    exact not_or.mpr ⟨Nat.ne_of_gt positive, some_ open_⟩

theorem FsopBody.goes_reads (sizes : List Nat) :
    b.Goes (b.reads sizes).1 (b.reads sizes).2 ∧ ((b.reads sizes).2.status = none →
      sizes.countP (0 < ·) ≤ (b.reads sizes).1.length) := by
  induction sizes generalizing b with
  | nil => exact ⟨⟨rfl, id, id⟩, fun _ => Nat.le_refl 0⟩
  | cons n sizes ih =>
    obtain ⟨first, some_⟩ := b.goes_read n
    obtain ⟨later, count⟩ := ih (b.read n).2
    refine ⟨⟨?_, later.tidy ∘ first.tidy, first.stays ∘ later.stays⟩, ?_⟩
    · rw [first.rest, later.rest, reads, append_assoc]
    · intro open_
      have more := count open_
      rw [countP_cons, reads, length_append]
      split_ifs with positive
      · have got := length_pos_iff.mpr (some_ (of_decide_eq_true positive) (later.stays open_))
        omega
      · omega

/-- A body that its source gives in any reads reaches the destination, and what
follows it is left; cut anywhere, it is truncated.  On any stream the reader that
is pulled from hands out what the other writes and ends as it does, and every
buffer that is not empty brings it on. -/
theorem body_framed {reads : List (List UInt8)} (small : ∀ got ∈ reads, got.length ≤ fsopChunk) :
    (∃ stream, writeFSOpBody reads = .ok stream ∧ Framed stream reads.flatten) ∧
      ∀ r sizes got after, (fSOpBodyReader r).reads sizes = (got, after) →
        got <+: (readFSOpBody r).1 ∧
          (∀ fin, after.status = some fin → readFSOpBody r = (got, fin)) ∧
          (after.status = none → sizes.countP (0 < ·) ≤ got.length) := by
  refine ⟨framed_of_reads small, ?_⟩
  intro r sizes got after ran
  obtain ⟨goes, more⟩ := (fSOpBodyReader r).goes_reads sizes
  rw [ran] at goes more
  have same : readFSOpBody r = (got ++ after.rest.1, after.rest.2) := goes.rest
  rw [same]
  refine ⟨prefix_append _ _, ?_, more⟩
  intro fin reported
  have empty : after.buf = [] :=
    goes.tidy (fun _ => rfl) (by rw [reported]; exact Option.some_ne_none fin)
  rw [FsopBody.rest, reported, empty, append_nil]

theorem threeReads_framed : (∀ got ∈ [[1, 2], [], [3]], length got ≤ fsopChunk) ∧
    ∃ stream, writeFSOpBody [[1, 2], [], [3]] = .ok stream ∧ Framed stream [1, 2, 3] :=
  ⟨by decide, (body_framed (by decide)).1⟩

end Cornus.Wire.FsOp
