import Mathlib.Data.List.TakeWhile
import Cornus.Storage.S3Session

/-!
# Failed writes to an upload session

The filesystem and the staged upload append what the reader delivers to the
session file as it comes; nothing is taken back when the reader or the file
system fails afterwards.  The multipart upload replaces its sidecar last.
-/

namespace Cornus.Storage

open Lib Prod List

/-- A chunk that the reader delivers.  Writing it to a file may stop after some
bytes; completing a part with it has a fate. -/
structure Chunk where
  bytes : Content
  accepted : Option Nat := none
  fate : Fate := .done

/-- The session file takes all of the chunk. -/
def Chunk.isWhole (chunk : Chunk) : Bool :=
  chunk.accepted.isNone

/-- What one `Write` meets: the reader's chunks and how it ends, and whether the
calls after the copy succeed. -/
structure Delivery where
  chunks : List Chunk
  (ends syncs stats saves : Bool := true)

/-- `io.Copy` to the session file; the second part says whether every chunk was
written. -/
def copyInto (file : Content) : List Chunk → Content × Bool
  | [] => (file, true)
  | chunk :: chunks =>
    match chunk.accepted with
    | none => copyInto (file ++ chunk.bytes) chunks
    | some count => (file ++ chunk.bytes.take count, false)

variable (file : Content) (delivery : Delivery)

/-- `Write` of an upload that appends to a file: the file after it and the size
it returns. -/
def appendWrite : Content × Option Nat :=
  let (file, copied) := copyInto file delivery.chunks
  (file, if copied && delivery.ends && delivery.syncs && delivery.stats then
    some file.length else none)

def fsUploadWrite : Content × Option Nat :=
  appendWrite file delivery

def stagedUploadWrite : Content × Option Nat :=
  appendWrite file delivery

/-- A session of one of the three stores. -/
inductive UploadSession (cfg : S3Config) where
  | filesystem (file : Content)
  | staged (file : Content)
  | s3 (st : S3State cfg.hash)

namespace Delivery

def content : Content :=
  delivery.chunks.flatMap Chunk.bytes

def body : S3Body where
  chunks := delivery.chunks.map fun chunk => (chunk.bytes, chunk.fate)
  ends := delivery.ends
  saves := delivery.saves

/-- The chunks before the first that the file does not take whole, and what the
file takes of that one. -/
def reaching : Content :=
  (delivery.chunks.takeWhile Chunk.isWhole).flatMap Chunk.bytes ++
    ((delivery.chunks.find? (!·.isWhole)).elim [] fun chunk =>
      chunk.bytes.take (chunk.accepted.getD 0))

/-- A chunk is not taken whole, the reader ends with an error, or a call after the
copy fails. -/
def fails : Bool :=
  delivery.chunks.any (!·.isWhole) || !delivery.ends || !delivery.syncs || !delivery.stats

end Delivery

def recordedBytes (multipart : Multipart) (parts : List S3Part) : Content :=
  parts.flatMap fun part => (multipart.parts.lookup part.partNumber).getD []

namespace UploadSession

variable (session : UploadSession cfg)

/-- `Write`. -/
def write (delivery : Delivery) : UploadSession cfg × Option Nat :=
  match session with
  | .filesystem file => (fsUploadWrite file delivery).map .filesystem id
  | .staged file => (stagedUploadWrite file delivery).map .staged id
  | .s3 st => (s3Write cfg st delivery.body).map .s3 id

def offset : UploadSession cfg → Nat
  | .filesystem file | .staged file => file.length
  | .s3 st => (st.sidecar.map S3Session.total).getD 0

def bytes : UploadSession cfg → Content
  | .filesystem file | .staged file => file
  | .s3 st =>
    match st.sidecar with
    | none => []
    | some session =>
      recordedBytes st.multipart session.parts ++ session.tail

def hashState : UploadSession cfg → cfg.hash.State
  | .filesystem file | .staged file => cfg.hash.after file
  | .s3 st => (st.sidecar.map S3Session.hashState).getD cfg.hash.init

/-- A session of the multipart upload is one that its requests save. -/
def Sound : UploadSession cfg → Prop
  | .filesystem _ | .staged _ => True
  | .s3 st => ∀ session, st.sidecar = some session →
      ∃ contents, session.Stands st.multipart contents

/-- A write that returns an error leaves the session as it was. -/
def FailureKeeps (delivery : Delivery) : Prop :=
  ∀ after, session.write delivery = (after, none) →
    after.offset = session.offset ∧ after.bytes = session.bytes ∧
      after.hashState = session.hashState

/-- No byte gets into a session file before something goes wrong. -/
def Harmless (delivery : Delivery) : Prop :=
  match session with
  | .filesystem _ | .staged _ =>
    delivery.fails = false ∨ delivery.reaching = []
  | .s3 _ => True

end UploadSession

theorem copyInto_eq : copyInto file delivery.chunks =
      (file ++ delivery.reaching, delivery.chunks.all Chunk.isWhole) := by
  rw [Delivery.reaching]
  induction delivery.chunks generalizing file with
  | nil => simp [copyInto]
  | cons chunk rest ih =>
    rw [copyInto]
    cases accepted : chunk.accepted with
    | none => simp [Chunk.isWhole, accepted, ih]
    | some count => simp [Chunk.isWhole, accepted]

theorem reaching_of_whole (whole : delivery.chunks.all Chunk.isWhole = true) :
    delivery.reaching = delivery.content := by
  have all : ∀ chunk ∈ delivery.chunks, chunk.isWhole = true := all_eq_true.mp whole
  have none_ : delivery.chunks.find? (!·.isWhole) = none := by
    simpa using all
  rw [Delivery.reaching, takeWhile_eq_self_iff.mpr all, none_]
  exact append_nil _

theorem fails_eq : delivery.fails = !(delivery.chunks.all Chunk.isWhole && delivery.ends &&
      delivery.syncs && delivery.stats) := by
  simp [Delivery.fails, Bool.not_and, any_eq_not_all_not]

theorem appendWrite_eq :
    appendWrite file delivery = (file ++ delivery.reaching, if delivery.fails then none
      else some (file ++ delivery.reaching).length) := by
  rw [appendWrite, copyInto_eq]
  cases fails : delivery.fails with
  | false =>
    rw [fails_eq, Bool.not_eq_false'] at fails
    simp only [fails, if_true, Bool.false_eq_true, if_false]
  | true =>
    rw [fails_eq, Bool.not_eq_true'] at fails
    simp only [fails, Bool.false_eq_true, if_false, if_true]

variable {contents : List Content} {multipart : Multipart}

theorem recordedBytes_recordParts (stored : ∀ index data, contents[index]? = some data →
      multipart.parts.lookup (index + 1) = some data) :
    recordedBytes multipart (recordParts cfg contents) = contents.flatten := by
  rw [recordedBytes, recordParts, flatMap_def]
  congr 1
  apply List.ext_getElem (by simp)
  intro index _ bound
  rw [List.getElem_map, List.getElem_mapIdx, stored index _ (List.getElem?_eq_getElem bound)]
  rfl

section Writes

variable {cfg : S3Config}

theorem S3Session.Stands.recordedBytes {session : S3Session cfg.hash}
    (stands : session.Stands multipart contents) :
    recordedBytes multipart session.parts = contents.flatten := by
  rw [stands.recorded]
  exact recordedBytes_recordParts stands.stored

variable (staged : Bool)

def UploadSession.ofFile (file : Content) : UploadSession cfg :=
  if staged then .staged file else .filesystem file

theorem write_ofFile (file : Content) (delivery : Delivery) :
    (UploadSession.ofFile staged file : UploadSession cfg).write delivery =
      (UploadSession.ofFile staged (file ++ delivery.reaching), if delivery.fails then none
        else some (file ++ delivery.reaching).length) := by
  cases staged
  · exact congrArg (map UploadSession.filesystem id) (appendWrite_eq file delivery)
  · exact congrArg (map UploadSession.staged id) (appendWrite_eq file delivery)

theorem failureKeeps_file (file : Content) (delivery : Delivery) :
    (UploadSession.ofFile staged file : UploadSession cfg).FailureKeeps delivery ↔
      (delivery.fails = false ∨ delivery.reaching = []) := by
  have bytes (content : Content) : (UploadSession.ofFile staged content : UploadSession cfg).bytes =
        content := by
    cases staged <;> rfl
  constructor
  · intro keeps
    cases fails : delivery.fails with
    | false => exact .inl rfl
    | true =>
      have written : (UploadSession.ofFile staged file : UploadSession cfg).write delivery =
            (UploadSession.ofFile staged (file ++ delivery.reaching), none) := by
        rw [write_ofFile, fails, if_pos rfl]
      have kept := (keeps _ written).2.1
      rw [bytes, bytes] at kept
      exact .inr (append_right_eq_self.mp kept)
  · rintro (success | empty) after given
    · rw [write_ofFile, success] at given
      cases (mk.inj given).2
    · rw [write_ofFile, empty, append_nil] at given
      rw [← (mk.inj given).1]
      exact ⟨rfl, rfl, rfl⟩

variable {st : S3State cfg.hash} {acknowledged : Content} {delivery : Delivery}

theorem failureKeeps_s3 (sound : (UploadSession.s3 st).Sound) (delivery : Delivery) :
    (UploadSession.s3 st).FailureKeeps delivery := by
  intro after given
  rw [UploadSession.write] at given
  cases written : s3Write cfg st delivery.body with
  | mk next result =>
  rw [written] at given
  obtain ⟨same, failed⟩ := mk.inj given
  rw [← same]
  cases found : st.sidecar with
  | none =>
    simp only [s3Write, found] at written
    rw [← (mk.inj written).1]
    exact ⟨rfl, rfl, rfl⟩
  | some session =>
    obtain ⟨contents, stands⟩ := sound session found
    obtain ⟨_, agrees, kept, _⟩ := s3Write_spec found stands written
    have later : recordedBytes next.multipart session.parts =
        recordedBytes st.multipart session.parts := by
      rw [stands.recordedBytes, (stands.of_agrees agrees).recordedBytes]
    simp only [UploadSession.offset, UploadSession.bytes,
      UploadSession.hashState, kept failed, found, later, and_self]

/-- A session, and the bytes it has acknowledged. -/
structure Writing (cfg : S3Config) where
  session : UploadSession cfg
  acknowledged : Content := []

variable (writing : Writing cfg)

def writingStep (delivery : Delivery) : Option (Writing cfg) :=
  match writing.session.write delivery with
  | (session, none) => some { writing with session }
  | (session, some _) =>
    some ⟨session, writing.acknowledged ++ delivery.content⟩

def UploadSession.New : UploadSession cfg → Prop
  | .filesystem file | .staged file => file = []
  | .s3 st => st.sidecar = some {}

def Writing.Exact : Prop :=
  writing.session.Sound ∧ writing.session.bytes = writing.acknowledged

theorem body_content (delivery : Delivery) : delivery.body.content = delivery.content := by
  simp [S3Body.content, Delivery.body, Delivery.content, flatMap_map]

variable {next : Writing cfg}

theorem Writing.Exact.step_file {file : Content} (same : file = acknowledged)
    (harmless : delivery.fails = false ∨ delivery.reaching = [])
    (taken : writingStep ⟨UploadSession.ofFile staged file, acknowledged⟩ delivery = some next) :
    next.Exact := by
  rw [writingStep, write_ofFile] at taken
  have exact_ {content : Content} : (⟨UploadSession.ofFile staged content,
      content⟩ : Writing cfg).Exact := by
    cases staged <;> exact ⟨trivial, rfl⟩
  cases fails : delivery.fails with
  | false =>
    have all : delivery.reaching = delivery.content := by
      rw [fails_eq, Bool.not_eq_false', Bool.and_eq_true, Bool.and_eq_true,
        Bool.and_eq_true] at fails
      exact reaching_of_whole delivery fails.1.1.1
    simp only [fails, Bool.false_eq_true, if_false, all] at taken
    cases taken
    rw [same]
    exact exact_
  | true =>
    rw [fails] at harmless
    have empty := harmless.resolve_left (by decide)
    simp only [fails, if_true, empty, append_nil] at taken
    cases taken
    rw [same]
    exact exact_

theorem Writing.Exact.step_s3 (holds : (⟨.s3 st, acknowledged⟩ : Writing cfg).Exact)
    (taken : writingStep ⟨.s3 st, acknowledged⟩ delivery = some next) : next.Exact := by
  obtain ⟨sound, same⟩ := holds
  rw [writingStep, UploadSession.write] at taken
  cases written : s3Write cfg st delivery.body with
  | mk after result =>
  cases found : st.sidecar with
  | none =>
    have unchanged : s3Write cfg st delivery.body = (st, none) := by
      simp only [s3Write, found]
    simp only [unchanged] at taken
    cases taken
    exact ⟨sound, same⟩
  | some session =>
    obtain ⟨contents, stands⟩ := sound session found
    obtain ⟨_, agrees, failure, success⟩ := s3Write_spec found stands written
    have before : contents.flatten ++ session.tail = acknowledged := by
      simp only [UploadSession.bytes, found, stands.recordedBytes] at same
      exact same
    simp only [written] at taken
    cases result with
    | none =>
      cases taken
      have kept := failure rfl
      have later := stands.of_agrees agrees
      refine ⟨fun other saved => ?_, ?_⟩
      · rw [kept, found] at saved
        cases saved
        exact ⟨contents, later⟩
      · simp only [UploadSession.bytes, kept, found, later.recordedBytes]
        exact before
    | some total =>
      cases taken
      obtain ⟨saved, larger, sidecar, savedStands, _, more⟩ := success total rfl
      refine ⟨fun other given => ?_, ?_⟩
      · rw [sidecar] at given
        cases given
        exact ⟨larger, savedStands⟩
      · simp only [UploadSession.bytes, sidecar, savedStands.recordedBytes]
        rw [more, before, body_content]

/-- A harmless write keeps the session at the acknowledged bytes. -/
theorem Writing.Exact.step {writing next : Writing cfg}
    (holds : writing.Exact) (harmless : writing.session.Harmless delivery)
    (taken : writingStep writing delivery = some next) : next.Exact := by
  obtain ⟨session, acknowledged⟩ := writing
  cases session with
  | filesystem file =>
    have same : file = acknowledged := holds.2
    exact Writing.Exact.step_file false same harmless taken
  | staged file =>
    have same : file = acknowledged := holds.2
    exact Writing.Exact.step_file true same harmless taken
  | s3 st => exact Writing.Exact.step_s3 holds taken

theorem exact_of_new {session : UploadSession cfg} (new : session.New) :
    (⟨session, []⟩ : Writing cfg).Exact := by
  cases session with
  | filesystem file | staged file => exact ⟨trivial, new⟩
  | s3 st =>
    have saved : st.sidecar = some {} := new
    refine ⟨fun other given => ?_, ?_⟩
    · rw [saved] at given
      cases given
      refine ⟨[], rfl, fun index data impossible => ?_, ?_, rfl,
        fun data impossible => nomatch impossible⟩
      · cases impossible
      · exact (cfg.hash.write_nil _).symm
    · simp only [UploadSession.bytes, saved]
      rfl

end Writes

/-- Every failed write leaves the session as it was exactly when no byte gets
into a session file before the failure; and where this holds of every write, the
session holds the acknowledged chunks. -/
theorem failedWrites_keep_iff (cfg : S3Config) :
    (∀ (session : UploadSession cfg) delivery, session.Sound →
      (session.FailureKeeps delivery ↔ session.Harmless delivery)) ∧
    ∀ (session : UploadSession cfg) deliveries final, session.New →
      Along writingStep (fun writing delivery =>
        writing.session.Harmless delivery) ⟨session, []⟩ deliveries →
      run writingStep ⟨session, []⟩ deliveries = some final →
        final.session.bytes = final.acknowledged := by
  constructor
  · intro session delivery sound
    cases session with
    | filesystem file => exact failureKeeps_file false file delivery
    | staged file => exact failureKeeps_file true file delivery
    | s3 st =>
      exact iff_of_true (failureKeeps_s3 sound delivery) trivial
  · intro session deliveries final new along reached
    have holds : final.Exact := by
      apply run_invariant _ (exact_of_new new) along reached
      intro writing delivery next kept harmless taken
      exact kept.step harmless taken
    exact holds.2

/-- A reader that fails before its first byte, and the chunk once more. -/
def retriedChunk : List Delivery :=
  [{ chunks := [], ends := false }, { chunks := [{ bytes := [1] }] }]

theorem retriedChunk_kept : ∃ final, run writingStep
      (⟨.filesystem [], []⟩ : Writing ⟨plainHash, fun _ => ""⟩) retriedChunk = some final ∧
      final.session.bytes = final.acknowledged ∧ final.acknowledged = [1] := by
  have harmless : Along writingStep (fun (writing : Writing ⟨plainHash, fun _ => ""⟩) delivery =>
        writing.session.Harmless delivery) ⟨.filesystem [], []⟩
      retriedChunk := by
    refine ⟨.inr rfl, fun first taken => ?_⟩
    cases taken
    refine ⟨.inl rfl, fun second later => ?_⟩
    trivial
  exact ⟨_, rfl, (failedWrites_keep_iff ⟨plainHash, fun _ => ""⟩).2
    (.filesystem []) retriedChunk _ rfl harmless rfl, rfl⟩

/-- A reader that fails after one byte leaves that byte in the session file. -/
theorem brokenReader_not_keeps : ¬∃ cfg : S3Config, ∀ (session : UploadSession cfg) delivery,
      session.Sound → session.FailureKeeps delivery := by
  rintro ⟨cfg, keeps⟩
  have kept := (keeps (.filesystem []) { chunks := [{ bytes := [1] }]
                                         ends := false } trivial _ rfl).2.1
  cases kept

end Cornus.Storage
