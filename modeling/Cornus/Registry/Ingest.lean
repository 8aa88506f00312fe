import Cornus.Lib.Dict
import Cornus.Lib.Run
import Cornus.Storage.Keys

/-!
# Writing contents into containerd

A content is written through an ingest that is named after its digest.  Opening
a writer resumes an unfinished ingest at its end, closing a writer keeps the
ingest, and a commit checks the size and the digest of everything ingested.  A
write that stops, or that brings another content, therefore leaves its bytes to
the next write of the same digest.
-/

namespace Cornus.Registry

open Lib Option AList

abbrev Bytes := List UInt8

/-- go-digest: `FromBytes`, and whether `Parse` takes a text.  `Parse` takes what
`FromBytes` gives. -/
structure ContentDigests where
  fromBytes : Bytes → String
  accepts : String → Bool
  accepts_fromBytes : ∀ data, accepts (fromBytes data) = true

/-- What an image name stands for. -/
structure Target where
  mediaType : String
  digest : String
  deriving DecidableEq

/-- The contents by digest and the images by name. -/
structure ContainerdStore where
  content : Dict Bytes := ∅
  images : Dict Target := ∅

/-- The name under which a tag of a repository is written. -/
def imageName (repo tag : String) : String :=
  repo ++ ":" ++ tag

/-- `PutManifest` with the content written in one step. -/
def ctdPutManifest (sha : ContentDigests) (store : ContainerdStore)
    (repo ref mediaType : String) (body : Bytes) : ContainerdStore :=
  let digest := sha.fromBytes body
  let content :=
    if (store.content.lookup digest).isSome then store.content
    else store.content.insert digest body
  if Storage.isDigest ref then { store with content }
  else
    { content
      images := store.images.insert (imageName repo ref) ⟨mediaType, digest⟩ }

/-- The store with its unfinished ingests. -/
structure IngestStore extends ContainerdStore where
  ingests : Dict Bytes := ∅

/-- Why a write fails: the digest does not parse, the content is gone, the reader
fails, or a commit finds another size or digest. -/
inductive WriteError where
  | invalidDigest
  | notFound
  | interrupted
  | commitSize
  | commitDigest
  deriving DecidableEq

/-- What a call reads: its reader ends, or fails after `stop` bytes. -/
structure Delivery where
  content : Bytes
  stop : Option Nat := none

/-- The bytes that reach the writer. -/
def Delivery.bytes (body : Delivery) : Bytes :=
  match body.stop with
  | none => body.content
  | some stop => body.content.take stop

namespace IngestStore

variable (store : IngestStore)

/-- The bytes of an ingest; one that was never opened has none. -/
def ingested (ref : String) : Bytes :=
  (store.ingests.lookup ref).getD []

/-- `Writer` of the content store; it fails if the content exists. -/
def openWriter (ref digest : String) : Option IngestStore :=
  if (store.content.lookup digest).isSome then none
  else some { store with ingests := store.ingests.insert ref (store.ingested ref) }

/-- `Write` of a writer: the bytes go to the end of the ingest. -/
def write (ref : String) (data : Bytes) : IngestStore :=
  { store with ingests := store.ingests.insert ref (store.ingested ref ++ data) }

/-- `Commit` of a writer; a size of zero is not checked.  No other writer is at
work, so the content does not exist yet. -/
def commit (sha : ContentDigests) (store : IngestStore) (ref : String)
    (size : Nat) (expected : String) : Except WriteError IngestStore :=
  let data := store.ingested ref
  if 0 < size ∧ data.length ≠ size then .error .commitSize
  else if sha.fromBytes data ≠ expected then .error .commitDigest
  else
    .ok { store with
          content := store.content.insert expected data,
          ingests := store.ingests.erase ref }

end IngestStore

/-- The name of the ingest of a digest. -/
def ingestRef (digest : String) : String :=
  "cornus-" ++ digest

section Calls

variable (sha : ContentDigests) (store : IngestStore)

/-- What `writeContent` and `writeContentStream` do with an open writer. -/
def copyCommit (digest : String) (body : Delivery) : Except WriteError Nat × IngestStore :=
  let written := store.write (ingestRef digest) body.bytes
  match body.stop with
  | some _ => (.error .interrupted, written)
  | none =>
    let size := body.content.length
    match written.commit sha (ingestRef digest) size digest with
    | .error err => (.error err, written)
    | .ok committed => (.ok size, committed)

/-- A content that is already there counts as written. -/
def writeContent (digest : String) (body : Delivery) : Except WriteError Unit × IngestStore :=
  match store.openWriter (ingestRef digest) digest with
  | none => (.ok (), store)
  | some opened =>
    let (written, left) := copyCommit sha opened digest body
    (written.map fun _ => (), left)

/-- A content that is already there is answered with its size. -/
def writeContentStream (body : Delivery)
    (expect : String) : Except WriteError (String × Nat) × IngestStore :=
  if sha.accepts expect then
    match store.openWriter (ingestRef expect) expect with
    | none =>
      match store.content.lookup expect with
      | none => (.error .notFound, store)
      | some data => (.ok (expect, data.length), store)
    | some opened =>
      let (written, left) := copyCommit sha opened expect body
      (written.map fun size => (expect, size), left)
  else (.error .invalidDigest, store)

/-- The calls that write a content. -/
inductive BlobCall where
  | putBlob (body : Delivery) (expect : String)
  | commitUpload (body : Delivery) (expect : String)
  | putManifest (repo ref mediaType : String) (body : Delivery)

/-- What the call reads. -/
def BlobCall.body : BlobCall → Delivery
  | .putBlob body _ => body
  | .commitUpload body _ => body
  | .putManifest _ _ _ body => body

/-- The digest the call writes under. -/
def BlobCall.digest : BlobCall → String
  | .putBlob _ expect => expect
  | .commitUpload _ expect => expect
  | .putManifest _ _ _ body => sha.fromBytes body.content

/-- `PutBlob`. -/
def ctdPutBlob (body : Delivery) (expect : String) :
    Except WriteError (String × Nat) × IngestStore :=
  writeContentStream sha store body expect

/-- `CommitUpload`, which streams the staged file. -/
def ctdCommitUpload (body : Delivery)
    (expect : String) : Except WriteError (String × Nat) × IngestStore :=
  writeContentStream sha store body expect

/-- `PutManifest` with its ingest. -/
def ctdWriteManifest (repo ref mediaType : String) (body : Delivery) :
    Except WriteError String × IngestStore :=
  let digest := sha.fromBytes body.content
  match writeContent sha store digest body with
  | (.error err, left) => (.error err, left)
  | (.ok _, left) =>
    if Storage.isDigest ref then (.ok digest, left)
    else
      (.ok digest, { left with
          images := left.images.insert (imageName repo ref) ⟨mediaType, digest⟩ })

/-- The store after a call. -/
def blobNext : BlobCall → IngestStore
  | .putBlob body expect => (ctdPutBlob sha store body expect).2
  | .commitUpload body expect => (ctdCommitUpload sha store body expect).2
  | .putManifest repo ref mediaType body =>
    (ctdWriteManifest sha store repo ref mediaType body).2

variable (call : BlobCall)

/-- The store after a call. -/
def blobStep : Option IngestStore :=
  some (blobNext sha store call)

/-- The call reports no error. -/
def BlobCall.succeeds : BlobCall → Bool
  | .putBlob body expect => (ctdPutBlob sha store body expect).1.toBool
  | .commitUpload body expect =>
    (ctdCommitUpload sha store body expect).1.toBool
  | .putManifest repo ref mediaType body =>
    (ctdWriteManifest sha store repo ref mediaType body).1.toBool

/-- `GetBlob`, with the bytes its reader gives. -/
def ctdGetBlob (digest : String) : Except WriteError Bytes :=
  if sha.accepts digest then
    match store.content.lookup digest with
    | none => .error .notFound
    | some data => .ok data
  else .error .invalidDigest

/-- The call brings the whole content under its digest. -/
def BlobCall.Delivers (content : Bytes) : Prop :=
  call.body = ⟨content, none⟩ ∧ call.digest sha = sha.fromBytes content

/-- The call succeeds, and its digest then reads back as the content. -/
def Lands (content : Bytes) : Prop :=
  call.succeeds sha store = true ∧
    ctdGetBlob sha (blobNext sha store call) (call.digest sha) = .ok content

end Calls

/-- The digest has its content, or has nothing and no bytes are left from
earlier writes. -/
def Takes (store : IngestStore) (digest : String) (content : Bytes) : Prop :=
  store.content.lookup digest = some content ∨
    store.content.lookup digest = none ∧ store.ingested (ingestRef digest) = []

/-- Whatever was called before, a write of a whole content lands. -/
def LaterWritesLand (sha : ContentDigests) : Prop :=
  ∀ calls store call content, run (blobStep sha) {} calls = some store →
    call.Delivers sha content → Lands sha store call content

section Writes

variable {sha : ContentDigests} {store : IngestStore}

variable (sha)

@[simp]
theorem ingested_write (ref : String) (data : Bytes) :
    (store.write ref data).ingested ref = store.ingested ref ++ data := by
  simp [IngestStore.write, IngestStore.ingested]

variable {other : String} {data : Bytes}

theorem ingestRef_injective : Function.Injective ingestRef :=
  fun _ _ same => String.append_right_inj _ |>.mp same

/-- The write of a body under a digest, however it is called. -/
def deliver (store : IngestStore) (digest : String) (body : Delivery) : Bool × IngestStore :=
  if (store.content.lookup digest).isSome then (true, store)
  else
    let written := copyCommit sha store digest body
    (written.1.toBool, written.2)

variable {digest : String}

theorem openWriter_copyCommit (body : Delivery)
    (opens : store.openWriter (ingestRef digest) digest = some opened) :
    store.content.lookup digest = none ∧
      copyCommit sha opened digest body = copyCommit sha store digest body := by
  rw [IngestStore.openWriter] at opens
  split at opens <;> cases opens
  rename_i absent
  refine ⟨not_isSome_iff_eq_none.mp absent, ?_⟩
  simp [copyCommit, IngestStore.write, IngestStore.ingested]

theorem openWriter_eq_none (fails : store.openWriter (ingestRef digest) digest = none) :
    (store.content.lookup digest).isSome = true := by
  rw [IngestStore.openWriter] at fails
  split at fails
  · assumption
  · cases fails

theorem toBool_map {ε α β : Type} (result : Except ε α) (f : α → β) :
    (result.map f).toBool = result.toBool := by
  cases result <;> rfl

theorem writeContent_eq (store : IngestStore) (digest : String) (body : Delivery) :
    ((writeContent sha store digest body).1.toBool, (writeContent sha store digest body).2) =
      deliver sha store digest body := by
  rw [writeContent, deliver]
  cases opens : store.openWriter (ingestRef digest) digest with
  | none => rw [if_pos (openWriter_eq_none opens)]; rfl
  | some opened =>
    obtain ⟨absent, same⟩ := openWriter_copyCommit sha body opens
    simp [absent, same, toBool_map]

theorem writeContentStream_eq (store : IngestStore)
    (body : Delivery) (parses : sha.accepts expect = true) :
    ((writeContentStream sha store body expect).1.toBool,
      (writeContentStream sha store body expect).2) = deliver sha store expect body := by
  rw [writeContentStream, deliver, if_pos parses]
  cases opens : store.openWriter (ingestRef expect) expect with
  | none =>
    have present := openWriter_eq_none opens
    obtain ⟨data, held⟩ := isSome_iff_exists.mp present
    simp only [held]
    rfl
  | some opened =>
    obtain ⟨absent, same⟩ := openWriter_copyCommit sha body opens
    simp [absent, same, toBool_map]

variable {sha}

theorem blobNext_eq (store : IngestStore) (parses : sha.accepts (call.digest sha) = true) :
    let written := deliver sha store (call.digest sha) call.body
    call.succeeds sha store = written.1 ∧ (blobNext sha store call).content = written.2.content ∧
      (blobNext sha store call).ingests = written.2.ingests := by
  cases call with
  | putBlob body expect | commitUpload body expect =>
    have same := writeContentStream_eq sha store body parses
    exact ⟨congrArg Prod.fst same, congrArg (fun written => written.2.content) same,
      congrArg (fun written => written.2.ingests) same⟩
  | putManifest repo ref mediaType body =>
    have same := writeContent_eq sha store (sha.fromBytes body.content) body
    simp only [BlobCall.succeeds, BlobCall.digest, BlobCall.body, blobNext,
      ctdWriteManifest, ← same]
    rcases writeContent sha store (sha.fromBytes body.content) body with
      ⟨err | done, left⟩
    · exact ⟨rfl, rfl, rfl⟩
    · simp only
      split <;> exact ⟨rfl, rfl, rfl⟩

theorem copyCommit_lands (sha : ContentDigests) (store : IngestStore) (content : Bytes) :
    let digest := sha.fromBytes content
    let written := copyCommit sha store digest ⟨content, none⟩
    (written.1.toBool = true ∧ written.2.content.lookup digest = some content) ↔
      store.ingested (ingestRef digest) = [] := by
  intro digest written
  let left := store.ingested (ingestRef digest)
  have data : (store.write (ingestRef digest) content).ingested
      (ingestRef digest) = left ++ content := ingested_write _ _
  have unfolded : written = match (store.write (ingestRef digest)
      content).commit sha (ingestRef digest) content.length digest with
      | .error err => (.error err, store.write (ingestRef digest) content)
      | .ok committed => (.ok content.length, committed) := rfl
  rw [unfolded, IngestStore.commit, data]
  constructor
  · intro landed
    split at landed
    · exact nomatch landed.1
    rename_i committed commits
    split at commits
    · cases commits
    split at commits <;> cases commits
    have stored := landed.2
    rw [lookup_insert, some.injEq] at stored
    simpa using stored
  · intro empty
    have whole : left ++ content = content := by
      simp only [left, empty, List.nil_append]
    simp [whole, digest, Except.toBool]

theorem deliver_lands (sha : ContentDigests) (store : IngestStore) (content : Bytes) :
    let digest := sha.fromBytes content
    let written := deliver sha store digest ⟨content, none⟩
    (written.1 = true ∧ written.2.content.lookup digest = some content) ↔
      Takes store digest content := by
  intro digest written
  cases held : store.content.lookup digest with
  | none =>
    have absent : written = ((copyCommit sha store digest ⟨content, none⟩).1.toBool,
        (copyCommit sha store digest ⟨content, none⟩).2) := by
      simp [written, deliver, held]
    rw [absent, Takes, held]
    simp [copyCommit_lands sha store content, digest]
  | some data =>
    have present : written = (true, store) := by
      simp [written, deliver, held]
    rw [present, Takes, held]
    simp

/-- All three calls write alike. -/
theorem lands_iff_deliver {content : Bytes} (store : IngestStore)
    (delivers : call.Delivers sha content) :
    let written := deliver sha store (sha.fromBytes content) ⟨content, none⟩
    Lands sha store call content ↔
      written.1 = true ∧ written.2.content.lookup (sha.fromBytes content) = some content := by
  obtain ⟨body, named⟩ := delivers
  have parses : sha.accepts (call.digest sha) = true := by
    rw [named]
    exact sha.accepts_fromBytes content
  obtain ⟨succeeds, stored, -⟩ := blobNext_eq store parses
  rw [Lands, succeeds, ctdGetBlob, if_pos parses, stored, body, named]
  apply and_congr_right
  intro _
  cases (deliver sha store (sha.fromBytes content)
      ⟨content, none⟩).2.content.lookup (sha.fromBytes content) with
  | none => simp
  | some data => simp

/-- Whatever was written before, a call that delivers exactly the content of its
digest lands exactly if the digest takes it. -/
theorem lands_iff_takes (sha : ContentDigests) (store : IngestStore)
    (call : BlobCall) (content : Bytes) (delivers : call.Delivers sha content) :
    Lands sha store call content ↔ Takes store (sha.fromBytes content) content :=
  (lands_iff_deliver store delivers).trans (deliver_lands sha store content)

/-- Where no bytes are left over, the ingest makes the same of a manifest as
writing it in one step. -/
theorem ctdWriteManifest_whole (sha : ContentDigests) (store : IngestStore)
    (repo ref mediaType : String) (body : Bytes)
    (unused : store.ingested (ingestRef (sha.fromBytes body)) = []) :
    (ctdWriteManifest sha store repo ref mediaType ⟨body, none⟩).2.toContainerdStore =
      ctdPutManifest sha store.toContainerdStore repo ref mediaType body := by
  let digest := sha.fromBytes body
  let written := store.write (ingestRef digest) body
  have data : written.ingested (ingestRef digest) = body := by
    rw [ingested_write, unused, List.nil_append]
  have copied : copyCommit sha store digest ⟨body, none⟩ = (.ok body.length, { written with
        content := written.content.insert digest body
        ingests := written.ingests.erase (ingestRef digest) }) := by
    have committed : written.commit sha (ingestRef digest) body.length digest = .ok { written with
          content := written.content.insert digest body
          ingests := written.ingests.erase (ingestRef digest) } := by
      simp [IngestStore.commit, data, digest]
    simp only [copyCommit, Delivery.bytes]
    rw [committed]
  simp only [ctdWriteManifest, ctdPutManifest, writeContent]
  cases opens : store.openWriter (ingestRef digest) digest with
  | none =>
    have present : (store.content.lookup digest).isSome = true := openWriter_eq_none opens
    rw [if_pos present]
    simp only
    split <;> rfl
  | some opened =>
    obtain ⟨absent, same⟩ := openWriter_copyCommit sha ⟨body, none⟩ opens
    have missing : ¬(store.content.lookup digest).isSome = true := by
      rw [absent]
      decide
    have both : copyCommit sha opened (sha.fromBytes body)
        ⟨body, none⟩ = _ := same.trans copied
    rw [if_neg missing]
    simp only [both, Except.map]
    split <;> rfl

/-- The bytes of "one". -/
def oneBytes : Bytes := [111, 110, 101]

/-- The bytes of "two". -/
def twoBytes : Bytes := [116, 119, 111]

/-- SHA-256 on the two contents; any other is given the digest of no bytes. -/
def shaOfTwo : ContentDigests where
  fromBytes data :=
    if data = oneBytes then
      "sha256:7692c3ad3540bb803c020b3aee66cd8887123234ea0c6e7143c0add73ff431ed"
    else if data = twoBytes then
      "sha256:3fc4ccfe745870e2c0d99f71f30ff0656c8dedd41cc1d7d3d376b0dbe685e2f3"
    else "sha256:e3b0c44298fc1c149afbf4c8996fb92427ae41e4649b934ca495991b7852b855"
  accepts := Storage.isDigest
  accepts_fromBytes data := by
    split
    · decide +kernel
    · split <;> decide +kernel

/-- A put of "one", whose reader may stop. -/
def putOne (stop : Option Nat) : BlobCall :=
  .putBlob ⟨oneBytes, stop⟩ (shaOfTwo.fromBytes oneBytes)

theorem secondContent_whole :
    let store := blobNext shaOfTwo {} (putOne none)
    (ctdWriteManifest shaOfTwo store "app" "v1" "image" ⟨twoBytes, none⟩).2.toContainerdStore =
      ctdPutManifest shaOfTwo store.toContainerdStore "app" "v1" "image" twoBytes :=
  ctdWriteManifest_whole _ _ _ _ _ _ (by decide +kernel)

/-- What the contents and the ingests look like after a call. -/
inductive Written (sha : ContentDigests) (store : IngestStore)
    (digest : String) (body : Delivery) (next : IngestStore) : Prop where
  | same (content : next.content = store.content) (ingests : next.ingests = store.ingests)
  | left (absent : store.content.lookup digest = none) (refused : body.stop = none →
        sha.fromBytes (store.ingested (ingestRef digest) ++ body.bytes) = digest →
        (store.ingested (ingestRef digest) ++ body.bytes).length ≠ body.content.length)
      (content : next.content = store.content)
      (ingests : next.ingests = (store.write (ingestRef digest) body.bytes).ingests)
  | stored (absent : store.content.lookup digest = none) (complete : body.stop = none)
      (named : sha.fromBytes (store.ingested (ingestRef digest) ++ body.bytes) = digest)
      (size : 0 < body.content.length → (store.ingested (ingestRef digest) ++
        body.bytes).length = body.content.length)
      (content : next.content = store.content.insert digest
        (store.ingested (ingestRef digest) ++ body.bytes))
      (ingests : next.ingests = (store.write (ingestRef digest)
        body.bytes).ingests.erase (ingestRef digest))

/-- A write into a digest without content leaves its bytes in the ingest, or
everything ingested as the content. -/
theorem copyCommit_written (absent : store.content.lookup digest = none) (body : Delivery) :
    Written sha store digest body (copyCommit sha store digest body).2 := by
  rw [copyCommit]
  cases stop : body.stop with
  | some stop => exact .left absent (by simp [*]) rfl rfl
  | none =>
    simp only [IngestStore.commit, ingested_write]
    by_cases size : 0 < body.content.length ∧
        (store.ingested (ingestRef digest) ++ body.bytes).length ≠ body.content.length
    · rw [if_pos size]
      exact .left absent (fun _ _ => size.2) rfl rfl
    · rw [if_neg size]
      by_cases named : sha.fromBytes (store.ingested (ingestRef digest) ++ body.bytes) = digest
      · rw [if_neg (not_not.mpr named)]
        exact .stored absent stop named (by omega) rfl rfl
      · rw [if_pos named]
        exact .left absent (fun _ same => absurd same named) rfl rfl

theorem blobNext_of_unparsed
    (fails : ¬sha.accepts (call.digest sha) = true) : blobNext sha store call = store := by
  cases call with
  | putBlob body expect =>
    have unparsed : ¬sha.accepts expect = true := fails
    simp only [blobNext, ctdPutBlob, writeContentStream, if_neg unparsed]
  | commitUpload body expect =>
    have unparsed : ¬sha.accepts expect = true := fails
    simp only [blobNext, ctdCommitUpload, writeContentStream, if_neg unparsed]
  | putManifest repo ref mediaType body =>
    exact absurd (sha.accepts_fromBytes body.content) fails

theorem blobNext_written (sha : ContentDigests) (store : IngestStore) (call : BlobCall) :
    Written sha store (call.digest sha) call.body (blobNext sha store call) := by
  by_cases parses : sha.accepts (call.digest sha) = true
  · obtain ⟨-, content, ingests⟩ := blobNext_eq store parses
    rw [deliver] at content ingests
    split at content
    · rename_i present
      rw [if_pos present] at ingests
      exact .same content ingests
    · rename_i missing
      rw [if_neg missing] at ingests
      have absent := not_isSome_iff_eq_none.mp missing
      cases copyCommit_written absent call.body with
      | same kept filled => exact .same (content.trans kept) (ingests.trans filled)
      | left _ refused kept filled =>
        exact .left absent refused (content.trans kept) (ingests.trans filled)
      | stored _ complete named size kept filled =>
        exact .stored absent complete named size (content.trans kept) (ingests.trans filled)
  · rw [blobNext_of_unparsed parses]
    exact .same rfl rfl

variable {next : IngestStore}

theorem ingested_congr (same : next.ingests.lookup ref = store.ingests.lookup ref) :
    next.ingested ref = store.ingested ref := by
  rw [IngestStore.ingested, same, IngestStore.ingested]

theorem written_ingested (same : next.ingests = (store.write ref data).ingests) :
    next.ingested ref = store.ingested ref ++ data := by
  rw [ingested_congr (congrArg (lookup ref) same), ingested_write]

/-- A call touches the ingest of its own digest only. -/
theorem Written.ingested {body : Delivery} (written : Written sha store digest body next)
    (apart : ref ≠ ingestRef digest) : next.ingested ref = store.ingested ref := by
  have kept : (store.write (ingestRef digest) body.bytes).ingests.lookup ref =
      store.ingests.lookup ref :=
    lookup_insert_ne apart
  apply ingested_congr
  cases written with
  | same content ingests => rw [ingests]
  | left absent refused content ingests => rw [ingests, kept]
  | stored absent complete named size content ingests =>
    rw [ingests, lookup_erase_ne apart, kept]

theorem Written.frame {body : Delivery} (written : Written sha store digest body next)
    (apart : other ≠ digest) : next.content.lookup other = store.content.lookup other ∧
      next.ingested (ingestRef other) = store.ingested (ingestRef other) := by
  refine ⟨?_, written.ingested fun same => apart (ingestRef_injective same)⟩
  cases written with
  | same content ingests | left absent refused content ingests => rw [content]
  | stored absent complete named size content ingests => rw [content, lookup_insert_ne apart]

end Writes

variable (sha : ContentDigests) (store : IngestStore)

/-- The call writes nothing, or all of a content of its digest. -/
def Harmless (call : BlobCall) : Prop :=
  (store.content.lookup (call.digest sha)).isSome = true ∨
    call.body.bytes = [] ∨
    call.body.stop = none ∧ sha.fromBytes call.body.content = call.digest sha

/-- No ingest has bytes, and contents have their digests. -/
structure Clean : Prop where
  unused : ∀ ref, store.ingested ref = []
  named : ∀ digest data, store.content.lookup digest = some data → sha.fromBytes data = digest

/-- The digest has no content, and bytes are left over for it. -/
def Blocked (digest : String) : Prop :=
  store.content.lookup digest = none ∧ store.ingested (ingestRef digest) ≠ []

section Runs

variable {sha : ContentDigests} {store : IngestStore}

theorem Clean.next (clean : Clean sha store) (harmless : Harmless sha store call) :
    Clean sha (blobNext sha store call) := by
  have written := blobNext_written sha store call
  constructor
  · intro ref
    by_cases own : ref = ingestRef (call.digest sha)
    · subst own
      cases written with
      | same content ingests =>
        rw [ingested_congr (congrArg (lookup _) ingests)]
        exact clean.unused _
      | left absent refused content ingests =>
        rw [written_ingested ingests, clean.unused, List.nil_append]
        rcases harmless with present | nothing | ⟨complete, named⟩
        · simp [absent] at present
        · exact nothing
        have bytes : call.body.bytes = call.body.content := by
          simp only [Delivery.bytes, complete]
        rw [clean.unused, List.nil_append, bytes] at refused
        exact absurd rfl (refused complete named)
      | stored absent complete named size content ingests =>
        rw [IngestStore.ingested, ingests, lookup_erase]
        rfl
    · rw [written.ingested own]
      exact clean.unused ref
  · intro digest data held
    cases written with
    | same content ingests | left absent refused content ingests =>
      rw [content] at held
      exact clean.named digest data held
    | stored absent complete named size content ingests =>
      rw [content, lookup_insert_eq_some_iff] at held
      rcases held with ⟨rfl, rfl⟩ | ⟨_, before⟩
      · exact named
      · exact clean.named digest data before

theorem blocked_of_stopped {stop : Nat} (parses : sha.accepts (call.digest sha) = true)
    (absent : store.content.lookup (call.digest sha) = none)
    (stops : call.body.stop = some stop) (bytes : call.body.bytes ≠ []) :
    Blocked (blobNext sha store call) (call.digest sha) := by
  have left : (deliver sha store (call.digest sha) call.body).2 =
      store.write (ingestRef (call.digest sha)) call.body.bytes := by
    simp [deliver, absent, copyCommit, stops]
  obtain ⟨-, content, ingests⟩ := blobNext_eq store parses
  rw [left] at content ingests
  refine ⟨by rw [content]; exact absent, ?_⟩
  rw [written_ingested ingests]
  simp [bytes]

variable {digest : String}

theorem Blocked.next (blocked : Blocked store digest)
    (filled : call.body.stop = none → call.body.content ≠ []) :
    Blocked (blobNext sha store call) digest := by
  have written := blobNext_written sha store call
  by_cases other : digest = call.digest sha
  · subst other
    have bytes := blocked.2
    cases written with
    | same content ingests =>
      refine ⟨by rw [content, blocked.1], ?_⟩
      rw [ingested_congr (congrArg (lookup _) ingests)]
      exact bytes
    | left absent refused content ingests =>
      refine ⟨by rw [content, absent], ?_⟩
      rw [written_ingested ingests]
      simp [bytes]
    | stored absent complete named size content ingests =>
      have some_ : 0 < call.body.content.length :=
        List.length_pos_iff.mpr (filled complete)
      have whole := size some_
      simp only [Delivery.bytes, complete, List.length_append] at whole
      have none_ : (store.ingested (ingestRef (call.digest sha))).length = 0 := by
        omega
      exact absurd (List.length_eq_zero_iff.mp none_) bytes
  · obtain ⟨content, ingested⟩ := written.frame other
    rw [Blocked, content, ingested]
    exact blocked

theorem clean_of_harmless (along : Along (blobStep sha) (Harmless sha) {} calls)
    (reached : run (blobStep sha) {} calls = some store) : Clean sha store := by
  apply run_invariant _ _ along reached
  · intro state call next kept harmless taken
    cases taken
    exact Clean.next kept harmless
  · exact ⟨fun ref => rfl, fun digest data held => nomatch held⟩

theorem Clean.takes (clean : Clean sha store) (content : Bytes)
    (single : ∀ data, store.content.lookup (sha.fromBytes content) = some data →
      sha.fromBytes data = sha.fromBytes content → data = content) :
    Takes store (sha.fromBytes content) content := by
  cases held : store.content.lookup (sha.fromBytes content) with
  | none => exact .inr ⟨held, clean.unused _⟩
  | some data =>
    rw [single data held (clean.named _ _ held)] at held
    exact .inl held

/-- After calls that write nothing or a whole content, no ingest has bytes, and
every content whose digest has no other one can be written. -/
theorem takes_of_harmless (along : Along (blobStep sha) (Harmless sha) {} calls)
    (reached : run (blobStep sha) {} calls = some store) :
    (∀ ref, store.ingested ref = []) ∧ ∀ content,
      (∀ data, store.content.lookup (sha.fromBytes content) = some data →
        sha.fromBytes data = sha.fromBytes content → data = content) →
      Takes store (sha.fromBytes content) content := by
  have clean := clean_of_harmless along reached
  exact ⟨clean.unused, clean.takes⟩

theorem putOne_takes : (∀ ref, (blobNext shaOfTwo {} (putOne none)).ingested ref = []) ∧
    Takes (blobNext shaOfTwo {} (putOne none)) (shaOfTwo.fromBytes twoBytes) twoBytes := by
  have along : Along (blobStep shaOfTwo) (Harmless shaOfTwo) {} [putOne none] :=
    ⟨.inr (.inr ⟨rfl, rfl⟩), fun _ _ => trivial⟩
  obtain ⟨unused, takes⟩ := takes_of_harmless along rfl
  have free : (blobNext shaOfTwo {} (putOne none)).content.lookup
      (shaOfTwo.fromBytes twoBytes) = none := by decide +kernel
  refine ⟨unused, takes twoBytes ?_⟩
  intro data held _
  rw [free] at held
  cases held

/-- In every run of such calls, a later call that delivers the whole content of a
digest lands. -/
theorem lands_of_harmless (along : Along (blobStep sha) (Harmless sha) {} calls)
    (reached : run (blobStep sha) {} calls = some store) {content : Bytes}
    (single : ∀ data, store.content.lookup (sha.fromBytes content) = some data →
      sha.fromBytes data = sha.fromBytes content → data = content)
    (delivers : call.Delivers sha content) : Lands sha store call content := by
  apply (lands_iff_deliver store delivers).mpr
  apply (deliver_lands sha store content).mpr
  exact (clean_of_harmless along reached).takes content single

/-- Bytes left over for a digest keep every later non-empty write of it from
landing. -/
theorem blocked_forever {next : IngestStore} (blocked : Blocked store digest)
    (filled : ∀ call ∈ calls, call.body.stop = none → call.body.content ≠ [])
    (reached : run (blobStep sha) store calls = some next) : Blocked next digest := by
  have kept : ∀ state (call : BlobCall) next, Blocked state digest →
      (call.body.stop = none → call.body.content ≠ []) →
      blobStep sha state call = some next → Blocked next digest := by
    intro state call next blocked full taken
    cases taken
    exact blocked.next full
  exact (run_invariant kept blocked (Along.of_events filled) reached :)

theorem putOne_blocked : Blocked (blobNext shaOfTwo (blobNext shaOfTwo {}
      (putOne (some 1))) (putOne none)) (shaOfTwo.fromBytes oneBytes) := by
  have blocked : Blocked (blobNext shaOfTwo {} (putOne (some 1))) _ :=
    blocked_of_stopped (shaOfTwo.accepts_fromBytes oneBytes) rfl rfl (by decide)
  have filled : ∀ call ∈ [putOne none], call.body.stop = none → call.body.content ≠ [] := by decide
  exact blocked_forever blocked filled rfl

end Runs

/-- The blob "one" is put, and then put again under another name. -/
theorem secondPut_lands : Lands shaOfTwo (blobNext shaOfTwo {} (putOne none))
      (.putManifest "app" "v1" "image" ⟨oneBytes, none⟩) oneBytes := by
  apply (lands_iff_takes shaOfTwo _
    (.putManifest "app" "v1" "image" ⟨oneBytes, none⟩) oneBytes ⟨rfl, rfl⟩).mpr
  exact .inl (by decide +kernel)

/-- With whatever digest function, a put that stops after a byte blocks the put
of the whole content. -/
theorem stoppedPut_blocks : ¬∃ sha, LaterWritesLand sha := by
  intro always
  obtain ⟨sha, lands⟩ := always
  let digest := sha.fromBytes oneBytes
  let stopped : BlobCall := .putBlob ⟨oneBytes, some 1⟩ digest
  have read : Delivery.bytes ⟨oneBytes, some 1⟩ ≠ [] := by decide
  have whole : oneBytes ≠ [] := by decide
  have parses : sha.accepts digest = true := sha.accepts_fromBytes oneBytes
  have blocked : Blocked (blobNext sha {} stopped) digest := blocked_of_stopped parses rfl rfl read
  have again : Blocked (blobNext sha (blobNext sha {} stopped)
      (.putBlob ⟨oneBytes, none⟩ digest)) digest :=
    blocked.next fun _ => whole
  obtain ⟨-, readsBack⟩ :=
    lands [stopped] _ (.putBlob ⟨oneBytes, none⟩ digest) oneBytes rfl ⟨rfl, rfl⟩
  rw [ctdGetBlob, BlobCall.digest, if_pos parses, again.1] at readsBack
  cases readsBack

end Cornus.Registry
