import Cornus.Storage.S3Upload
import Mathlib.Algebra.GroupWithZero.Nat
import Mathlib.Data.List.Induction

/-!
# The invariant of a multipart session

The sidecar stands for the acknowledged bytes: the recorded parts, which the
service still holds under their numbers, followed by the tail.  Parts that a
failed request leaves behind have higher numbers than the recorded ones, so that
a later request overwrites them before it records them.
-/

namespace Cornus.Storage

open Lib AList Prod List Nat

variable (cfg : S3Config) (contents : List Content)

def recordParts : List S3Part :=
  contents.mapIdx fun index data => ⟨index + 1, cfg.etag data, data.length⟩

theorem length_recordParts : (recordParts cfg contents).length = contents.length := by
  simp [recordParts]

theorem recordParts_append (data : Content) :
    recordParts cfg (contents ++ [data]) = recordParts cfg contents ++
      [⟨contents.length + 1, cfg.etag data, data.length⟩] := by
  simp [recordParts, mapIdx_append]

structure S3Session.Stands {cfg : S3Config} (session : S3Session cfg.hash)
    (multipart : Multipart) (contents : List Content) : Prop where
  recorded : session.parts = recordParts cfg contents
  stored : ∀ index data, contents[index]? = some data →
    multipart.parts.lookup (index + 1) = some data
  hashed : session.hashState = cfg.hash.after (contents.flatten ++ session.tail)
  counted : session.total = (contents.flatten ++ session.tail).length
  large : ∀ data ∈ contents, s3MinPartSize ≤ data.length

section Loop

variable {cfg : S3Config} {session : S3Session cfg.hash} {contents : List Content}

def Multipart.AgreesTo (count : Nat) (first second : Multipart) : Prop :=
  ∀ number, number ≤ count → second.parts.lookup number = first.parts.lookup number

theorem Multipart.AgreesTo.trans {count : Nat} {first second : Multipart}
    (before : first.AgreesTo count second)
    (later : second.AgreesTo count third) : first.AgreesTo count third := by
  intro number small
  rw [later number small, before number small]

theorem S3Session.Stands.of_agrees (stands : session.Stands multipart contents)
    {other : Multipart} (agrees : multipart.AgreesTo contents.length other) :
    session.Stands other contents where
  __ := stands
  stored index data found := by
    have small : index < contents.length := (List.getElem?_eq_some_iff.mp found).1
    rw [agrees (index + 1) small]
    exact stands.stored index data found

variable {after : Multipart}

theorem uploadPart_spec (uploaded : uploadPart cfg multipart session data fate = (after, result)) :
    multipart.AgreesTo session.parts.length after ∧
      ∀ next, result = some next → after.parts.lookup (session.parts.length + 1) = some data ∧
        next = { session with parts := session.parts ++
          [⟨session.parts.length + 1, cfg.etag data, data.length⟩] } := by
  rw [uploadPart] at uploaded
  split at uploaded
  · cases uploaded
    constructor
    · intro number small
      split
      · exact lookup_insert_ne (by omega)
      · rfl
    · intro next given
      cases fate with
      | done =>
        cases given
        exact ⟨lookup_insert _, rfl⟩
      | lost => cases given
      | unseen => cases given
  · cases uploaded
    refine ⟨fun number _ => rfl, ?_⟩
    intro next impossible
    cases impossible

theorem uploadPart_done (session : S3Session cfg.hash) (data : Content)
    (isOpen : multipart.isOpen = true) : uploadPart cfg multipart session data .done =
      ({ multipart with parts := multipart.parts.insert (session.parts.length + 1) data },
        some { session with parts := session.parts ++
          [⟨session.parts.length + 1, cfg.etag data, data.length⟩] }) := by
  rw [uploadPart, if_pos isOpen]
  rfl

section

variable (stands : session.Stands multipart contents)
include stands

theorem S3Session.Stands.stored_append (agrees : multipart.AgreesTo contents.length after)
    (held : after.parts.lookup (contents.length + 1) = some data) (index : Nat)
    (other : Content) (found : (contents ++ [data])[index]? = some other) :
    after.parts.lookup (index + 1) = some other := by
  rcases lt_trichotomy index contents.length with small | same | big
  · rw [getElem?_append_left small] at found
    exact (stands.of_agrees agrees).stored index other found
  · rw [same, getElem?_concat_length] at found
    cases found
    rw [same]
    exact held
  · rw [getElem?_eq_none (by simp; omega)] at found
    cases found

theorem S3Session.Stands.record (agrees : multipart.AgreesTo contents.length after)
    (held : after.parts.lookup (contents.length + 1) = some session.tail)
    (large : s3MinPartSize ≤ session.tail.length) : S3Session.Stands { session with
      parts := session.parts ++ [⟨contents.length + 1, cfg.etag session.tail, session.tail.length⟩]
      tail := [] } after (contents ++ [session.tail]) where
  recorded := by
    rw [recordParts_append, stands.recorded]
  stored := stands.stored_append agrees held
  hashed := by
    rw [stands.hashed]
    simp
  counted := by
    rw [stands.counted]
    simp
  large data member := by
    rcases mem_append.mp member with old | new
    · exact stands.large data old
    · rw [mem_singleton.mp new]
      exact large

theorem S3Session.Stands.extend (chunk : Content) : S3Session.Stands { session with
      hashState := cfg.hash.write session.hashState chunk
      tail := session.tail ++ chunk
      total := session.total + chunk.length } multipart contents where
  __ := stands
  hashed := by
    rw [stands.hashed, cfg.hash.write_after, append_assoc]
  counted := by
    rw [stands.counted]
    simp [add_assoc]

/-- What the loop of `Write` does to a session: the recorded parts stay, and the
session it ends with stands for what was read. -/
theorem writeLoop_spec {body : List (Content × Fate)}
    (written : writeLoop cfg multipart session body = (after, result)) :
    multipart.AgreesTo contents.length after ∧
      ∀ next, result = some next → ∃ larger, next.Stands after larger ∧
        larger.flatten ++ next.tail = contents.flatten ++ session.tail ++ body.flatMap fst := by
  induction body generalizing multipart session contents with
  | nil =>
    cases written
    refine ⟨fun number _ => rfl, ?_⟩
    intro next given
    cases given
    exact ⟨contents, stands, by simp⟩
  | cons read rest ih =>
    obtain ⟨chunk, fate⟩ := read
    have extended := stands.extend chunk
    have length : session.parts.length = contents.length := by
      rw [stands.recorded, length_recordParts]
    rw [writeLoop] at written
    simp only at written
    split at written
    · rename_i full
      split at written
      · rename_i failed uploaded
        cases written
        obtain ⟨agrees, _⟩ := uploadPart_spec uploaded
        rw [length] at agrees
        refine ⟨agrees, ?_⟩
        intro next impossible
        cases impossible
      · rename_i between recorded uploaded
        obtain ⟨agrees, success⟩ := uploadPart_spec uploaded
        obtain ⟨held, same⟩ := success recorded rfl
        simp only [length] at agrees same
        have moved := extended.record agrees (length ▸ held) full
        rw [same] at written
        obtain ⟨rest_, later⟩ := ih moved written
        refine ⟨agrees.trans fun number small => rest_ number ?_, ?_⟩
        · rw [length_append]
          omega
        · intro next given
          obtain ⟨larger, nextStands, content⟩ := later next given
          refine ⟨larger, nextStands, ?_⟩
          rw [content]
          simp
    · obtain ⟨agrees, later⟩ := ih extended written
      refine ⟨agrees, ?_⟩
      intro next given
      obtain ⟨larger, nextStands, content⟩ := later next given
      refine ⟨larger, nextStands, ?_⟩
      rw [content]
      simp

end

end Loop

/-- The ranges cover the bytes from `off` to `size`, one after the other. -/
def Tiles (size : Nat) : Nat → List (Nat × Nat) → Prop
  | off, [] => off = size
  | off, (start, stop) :: ranges =>
    start = off ∧ start ≤ stop ∧ stop < size ∧ Tiles size (stop + 1) ranges

theorem s3CopyPartSize_pos : 0 < s3CopyPartSize := by
  decide

variable {off : Nat} {ranges : List (Nat × Nat)} {content : Content}

theorem tiles_cons {size : Nat} (positive : 0 < part) (more : off < size)
    (last : size ≤ off + part → ranges = [])
    (later : off + part ≤ size → Tiles size (off + part) ranges) :
    Tiles size off ((off, min (off + part - 1) (size - 1)) :: ranges) := by
  refine ⟨rfl, by omega, by omega, ?_⟩
  by_cases ends : size ≤ off + part
  · have stop : min (off + part - 1) (size - 1) + 1 = size := by omega
    rw [stop, last ends]
    exact rfl
  · have stop : min (off + part - 1) (size - 1) + 1 = off + part := by omega
    rw [stop]
    exact later (by omega)

theorem tiles_copyRangesFrom (size off : Nat) (within : off ≤ size) :
    Tiles size off (copyRangesFrom size off) := by
  rw [copyRangesFrom]
  by_cases more : off < size
  · rw [if_pos more]
    apply tiles_cons s3CopyPartSize_pos more
    · intro ends
      rw [copyRangesFrom, if_neg (not_lt.mpr ends)]
    · intro bound
      exact tiles_copyRangesFrom size (off + s3CopyPartSize) bound
  · rw [if_neg more]
    exact le_antisymm within (not_lt.mp more)
termination_by size - off
decreasing_by
  have positive := s3CopyPartSize_pos
  omega

theorem flatMap_slice (tiles : Tiles content.length off ranges) :
    ranges.flatMap (slice content) = content.drop off := by
  induction ranges generalizing off with
  | nil =>
    rw [Tiles] at tiles
    simp [tiles]
  | cons range rest ih =>
    obtain ⟨start, stop⟩ := range
    obtain ⟨rfl, ordered, within, later⟩ := tiles
    rw [flatMap_cons, ih later, slice]
    have next : stop + 1 = start + (stop + 1 - start) := by omega
    rw [next, ← drop_drop]
    simp only [Nat.add_sub_cancel_left]
    exact take_append_drop _ _

/-- Blobs are stored under the digest of their content. -/
def Addressed (hash : Hash) (blobs : Dict Content) : Prop :=
  ∀ hex content, blobs.lookup hex = some content → hash.digest content = hex

theorem Addressed.put {hash : Hash} {blobs : Dict Content} (addressed : Addressed hash blobs)
    {hex : String} (named : hash.digest content = hex) :
    Addressed hash (blobs.put hex content) := by
  intro other stored found
  rcases lookup_insert_eq_some_iff.mp found with ⟨rfl, rfl⟩ | ⟨_, found⟩
  · exact named
  · exact addressed other stored found

section Commit

variable {cfg : S3Config} {st : S3State cfg.hash}
  {session : S3Session cfg.hash} {contents : List Content}

variable (cfg) in
theorem completedParts_recordParts {multipart : Multipart}
    (stored : ∀ index data, contents[index]? = some data →
      multipart.parts.lookup (index + 1) = some data) :
    completedParts cfg multipart (recordParts cfg contents) = some contents := by
  induction contents using reverseRecOn with
  | nil => rfl
  | append_singleton before data ih =>
    have own : multipart.parts.lookup (before.length + 1) = some data :=
      stored before.length data List.getElem?_concat_length
    have earlier := ih fun index other found => stored index other (by
      rw [List.getElem?_append_left (List.getElem?_eq_some_iff.mp found).1]
      exact found)
    rw [completedParts] at earlier ⊢
    rw [recordParts_append, mapM_append, earlier]
    simp [own, Option.filter]

/-- What a commit does to the state, whatever it answers. -/
structure Settles (before after : S3State cfg.hash)
    (result : Option (String × Nat)) (content : Content) : Prop where
  parts : after.multipart.parts = before.multipart.parts
  sidecar : after.sidecar = before.sidecar ∨ after.sidecar = none
  blobs : Addressed cfg.hash after.blobs
  answer : ∀ hex size, result = some (hex, size) →
    hex = cfg.hash.digest content ∧ size = content.length ∧
      ∃ stored, after.blobs.lookup hex = some stored ∧
        (stored = content ∨ before.blobs.lookup hex = some stored)

variable (fate : Fate)

theorem parts_abortMultipart : (abortMultipart st fate).multipart.parts = st.multipart.parts := by
  rw [abortMultipart]
  split <;> rfl

theorem blobs_abortMultipart : (abortMultipart st fate).blobs = st.blobs := by
  rw [abortMultipart]
  split <;> rfl

theorem sidecar_abortMultipart : (abortMultipart st fate).sidecar = st.sidecar := by
  rw [abortMultipart]
  split <;> rfl

variable (removes : Bool)

theorem parts_deleteSidecar : (deleteSidecar st removes).multipart = st.multipart := by
  cases removes <;> rfl

theorem blobs_deleteSidecar : (deleteSidecar st removes).blobs = st.blobs := by
  cases removes <;> rfl

variable {after : S3State cfg.hash}

theorem Settles.remove {before : S3State cfg.hash}
    (settles : Settles before after result content) (removes : Bool) :
    Settles before (deleteSidecar after removes) result content := by
  cases removes with
  | false => exact settles
  | true => exact ⟨settles.parts, .inr rfl, settles.blobs, settles.answer⟩

theorem Settles.abort (addressed : Addressed cfg.hash st.blobs) (fate : Fate)
    (answer : ∀ hex size, result = some (hex, size) →
      hex = cfg.hash.digest content ∧ size = content.length ∧
        ∃ stored, st.blobs.lookup hex = some stored) :
    Settles st (abortMultipart st fate) result content where
  parts := parts_abortMultipart fate
  sidecar := .inl (sidecar_abortMultipart fate)
  blobs := by
    rw [blobs_abortMultipart]
    exact addressed
  answer hex size given := by
    obtain ⟨named, counted, stored, found⟩ := answer hex size given
    rw [blobs_abortMultipart]
    exact ⟨named, counted, stored, found, .inr found⟩

variable {hex : String} {succeeds : Bool}

theorem copyObject_spec (assembled : st.temp = some content)
    (copied : copyObject st hex content.length fates = (after, succeeds)) :
    after.multipart = st.multipart ∧ after.sidecar = st.sidecar ∧
      (after.blobs = st.blobs ∨ after.blobs = st.blobs.put hex content) ∧
      (succeeds = true → after.blobs = st.blobs.put hex content) := by
  have whole : (copyRanges content.length).flatMap (slice content) = content := by
    have tiles := tiles_copyRangesFrom content.length 0 (zero_le _)
    exact flatMap_slice tiles
  simp only [copyObject, assembled, whole] at copied
  split at copied
  · cases copied
    cases fates.copy <;> simp [Fate.effective, Fate.reported]
  · split at copied
    · cases copied
      cases fates.copy <;> simp [Fate.effective, Fate.reported]
    · cases copied
      simp

theorem completeMultipart_spec {parts : List S3Part} {fate : Fate}
    (held : completedParts cfg st.multipart parts = some contents)
    (completed : completeMultipart cfg st parts fate = (after, succeeds)) :
    after.multipart.parts = st.multipart.parts ∧
      after.sidecar = st.sidecar ∧ after.blobs = st.blobs ∧
      (succeeds = true → after.temp = some contents.flatten) := by
  simp only [completeMultipart, held] at completed
  split at completed
  · cases completed
    cases fate <;> simp [Fate.effective, Fate.reported]
  · cases completed
    simp

theorem commitParts_spec (recorded : session.parts = recordParts cfg contents)
    (stored : ∀ index data, contents[index]? = some data →
      st.multipart.parts.lookup (index + 1) = some data)
    (counted : session.total = contents.flatten.length)
    (named : cfg.hash.digest contents.flatten = hex) (addressed : Addressed cfg.hash st.blobs)
    (committed : commitParts cfg st session hex fates = (after, result)) :
    Settles st after result contents.flatten := by
  rw [commitParts] at committed
  split at committed
  · rename_i found
    cases committed
    rw [statFinds, Bool.and_eq_true] at found
    obtain ⟨content, held⟩ := Option.isSome_iff_exists.mp found.2
    apply Settles.remove
    apply Settles.abort addressed
    intro other size given
    cases given
    exact ⟨named.symm, counted, content, held⟩
  · have held : completedParts cfg st.multipart session.parts = some contents := by
      rw [recorded]
      exact completedParts_recordParts cfg stored
    split at committed
    · rename_i between completed
      cases committed
      obtain ⟨parts, sidecar, blobs, _⟩ := completeMultipart_spec held completed
      refine ⟨parts, .inl sidecar, ?_, fun _ _ impossible =>
        nomatch impossible⟩
      rw [blobs]
      exact addressed
    · rename_i between completed
      obtain ⟨parts, sidecar, blobs, assembled⟩ := completeMultipart_spec held completed
      rw [counted] at committed
      cases copied : copyObject between hex contents.flatten.length fates with
      | mk copy succeeds =>
      obtain ⟨sameParts, sameSidecar, sameBlobs, success⟩ := copyObject_spec (assembled rfl) copied
      simp only [copied] at committed
      cases committed
      have put := addressed.put named
      apply Settles.remove
      refine ⟨?_, .inl ?_, ?_, ?_⟩
      · split <;> rw [sameParts, parts]
      · split <;> rw [sameSidecar, sidecar]
      · have kept : Addressed cfg.hash copy.blobs := by
          rw [blobs] at sameBlobs
          rcases sameBlobs with same | same
          · rw [same]
            exact addressed
          · rw [same]
            exact put
        split <;> exact kept
      · intro other size given
        split at given <;> cases given
        rename_i ok
        have stores : copy.blobs.lookup hex = some contents.flatten := by
          rw [success ok, Dict.put, lookup_insert]
        refine ⟨named.symm, rfl, contents.flatten, ?_, .inl rfl⟩
        split <;> exact stores

theorem commitEmpty_spec (named : cfg.hash.digest [] = hex)
    (addressed : Addressed cfg.hash st.blobs)
    (committed : commitEmpty cfg st hex fates = (after, result)) : Settles st after result [] := by
  rw [commitEmpty] at committed
  simp only at committed
  split at committed
  · cases committed
    apply Settles.abort addressed
    intro _ _ impossible
    cases impossible
  · split at committed
    · rename_i found
      cases committed
      obtain ⟨content, held⟩ := Option.isSome_iff_exists.mp found
      apply Settles.remove
      apply Settles.abort addressed
      intro other size given
      cases given
      exact ⟨named.symm, rfl, content, held⟩
    · have emptied : Settles st (if fates.put.effective then
            { abortMultipart st fates.abort with
              blobs := (abortMultipart st fates.abort).blobs.put hex [] }
            else abortMultipart st fates.abort) none [] := by
        refine ⟨?_, .inl ?_, ?_, fun _ _ impossible => nomatch impossible⟩
        · split <;> exact parts_abortMultipart fates.abort
        · split <;> exact sidecar_abortMultipart fates.abort
        · split
          · simp only [blobs_abortMultipart]
            exact addressed.put named
          · rw [blobs_abortMultipart]
            exact addressed
      split at committed
      · rename_i reported
        cases committed
        apply Settles.remove
        refine ⟨emptied.parts, emptied.sidecar, emptied.blobs, ?_⟩
        intro other size given
        cases given
        have effective : fates.put.effective = true := by
          cases fate : fates.put <;> rw [fate] at reported <;> cases reported
          rfl
        refine ⟨named.symm, rfl, [], ?_, .inl rfl⟩
        rw [if_pos effective, Dict.put, lookup_insert]
      · cases committed
        exact emptied

theorem s3Commit_spec {expect : String} (found : st.sidecar = some session)
    (stands : session.Stands st.multipart contents) (addressed : Addressed cfg.hash st.blobs)
    (committed : s3Commit cfg st expect fates = (after, result)) :
    ∃ multipart, st.multipart.AgreesTo contents.length multipart ∧
      Settles { st with multipart } after result (contents.flatten ++ session.tail) := by
  have named : cfg.hash.digest (contents.flatten ++ session.tail) =
      cfg.hash.sum session.hashState := by
    rw [stands.hashed]
    rfl
  have length : session.parts.length = contents.length := by
    rw [stands.recorded, length_recordParts]
  simp only [s3Commit, found] at committed
  split at committed
  · cases committed
    refine ⟨st.multipart, fun _ _ => rfl, ?_⟩
    apply Settles.remove
    apply Settles.abort addressed
    intro _ _ impossible
    cases impossible
  · split at committed
    · rename_i empty
      have bare : contents.flatten ++ session.tail = [] := by
        rw [← length_eq_zero_iff, ← stands.counted]
        exact empty.1
      rw [bare] at named ⊢
      exact ⟨st.multipart, fun _ _ => rfl, commitEmpty_spec named addressed committed⟩
    · split at committed
      · rename_i flushed
        refine ⟨st.multipart, fun _ _ => rfl, ?_⟩
        rw [flushed, append_nil] at named ⊢
        apply commitParts_spec stands.recorded stands.stored _ named addressed committed
        rw [stands.counted, flushed, append_nil]
      · split at committed
        · rename_i multipart uploaded
          cases committed
          obtain ⟨agrees, _⟩ := uploadPart_spec uploaded
          rw [length] at agrees
          exact ⟨multipart, agrees, rfl, .inl found.symm, addressed, fun _ _ impossible =>
            nomatch impossible⟩
        · rename_i multipart next uploaded
          obtain ⟨agrees, success⟩ := uploadPart_spec uploaded
          obtain ⟨held, sameNext⟩ := success next rfl
          rw [length] at agrees
          have tailed : (contents ++ [session.tail]).flatten =
              contents.flatten ++ session.tail := by simp
          rw [← found] at committed
          rw [← tailed] at named ⊢
          refine ⟨multipart, agrees, commitParts_spec ?_ ?_ ?_ named addressed committed⟩
          · rw [sameNext, recordParts_append, stands.recorded, length_recordParts]
          · exact stands.stored_append agrees (length ▸ held)
          · rw [sameNext, tailed, stands.counted]

/-- An open upload whose parts the service holds is completed and copied. -/
theorem commitParts_succeeds (held : completedParts cfg st.multipart session.parts = some contents)
    (isOpen : st.multipart.isOpen = true) :
    (commitParts cfg st session hex {}).2 = some (hex, session.total) := by
  rw [commitParts]
  split
  · rfl
  · simp only [completeMultipart, held, isOpen, if_true, Fate.effective, Fate.reported, copyObject]
    by_cases single : session.total ≤ s3MaxSingleCopy <;> simp [single]

theorem s3Commit_succeeds {expect : String} (found : st.sidecar = some session)
    (stands : session.Stands st.multipart contents) (isOpen : st.multipart.isOpen = true)
    (expected : meets (cfg.hash.sum session.hashState) expect = true) :
    (s3Commit cfg st expect {}).2 = some (cfg.hash.sum session.hashState, session.total) := by
  simp only [s3Commit, found, expected, Bool.true_eq_false, if_false]
  split
  · rename_i empty
    rw [commitEmpty, empty.1]
    by_cases there : (st.blobs.lookup (cfg.hash.sum session.hashState)).isSome <;>
      simp [there, Fate.reported]
  split
  · have held : completedParts cfg st.multipart session.parts = some contents := by
      rw [stands.recorded]
      exact completedParts_recordParts cfg stands.stored
    exact commitParts_succeeds held isOpen
  -- The tail becomes one more part.
  have uploaded := uploadPart_done session session.tail isOpen
  obtain ⟨agrees, success⟩ := uploadPart_spec uploaded
  obtain ⟨there, -⟩ := success _ rfl
  have length : session.parts.length = contents.length := by
    rw [stands.recorded, length_recordParts]
  rw [length] at agrees there
  have held := completedParts_recordParts cfg (stands.stored_append agrees there)
  rw [recordParts_append, ← stands.recorded, ← length] at held
  rw [uploaded]
  exact commitParts_succeeds held isOpen

end Commit

/-- A session's state and the bytes of the writes it acknowledged. -/
structure Tracked where
  st : S3State cfg.hash
  acknowledged : Content := []

inductive S3Event where
  | write (body : S3Body)
  | commit (expect : String) (fates : CommitFates)
  | abort (fate : Fate) (removes : Bool)

def trackedStep (tracked : Tracked cfg) : S3Event → Option (Tracked cfg)
  | .write body =>
    match s3Write cfg tracked.st body with
    | (st, none) => some { tracked with st }
    | (st, some _) => some ⟨st, tracked.acknowledged ++ body.content⟩
  | .commit expect fates =>
    some { tracked with st := (s3Commit cfg tracked.st expect fates).1 }
  | .abort fate removes =>
    some { tracked with st := deleteSidecar (abortMultipart tracked.st fate) removes }

/-- The saved session stands for the acknowledged bytes. -/
structure Tracked.Sound {cfg : S3Config} (tracked : Tracked cfg) : Prop where
  session : ∀ session, tracked.st.sidecar = some session → ∃ contents,
    session.Stands tracked.st.multipart contents ∧
      contents.flatten ++ session.tail = tracked.acknowledged
  blobs : Addressed cfg.hash tracked.st.blobs

section Runs

variable {cfg : S3Config} {tracked : Tracked cfg}

/-- A failed write leaves the sidecar and the parts it records; one that succeeds
saves a session for the bytes before and those read. -/
theorem s3Write_spec {session : S3Session cfg.hash} {contents : List Content}
    {st after : S3State cfg.hash} {body : S3Body}
    (found : st.sidecar = some session) (stands : session.Stands st.multipart contents)
    (written : s3Write cfg st body = (after, result)) :
    after.blobs = st.blobs ∧ st.multipart.AgreesTo contents.length after.multipart ∧
      (result = none → after.sidecar = st.sidecar) ∧ ∀ total, result = some total → ∃ next larger,
        after.sidecar = some next ∧ next.Stands after.multipart larger ∧
          next.total = total ∧ larger.flatten ++ next.tail =
            contents.flatten ++ session.tail ++ body.content := by
  simp only [s3Write, found] at written
  split at written
  · rename_i multipart looped
    obtain ⟨agrees, _⟩ := writeLoop_spec stands looped
    cases written
    exact ⟨rfl, agrees, fun _ => found.symm, fun _ impossible =>
      nomatch impossible⟩
  · rename_i multipart next looped
    obtain ⟨agrees, later⟩ := writeLoop_spec stands looped
    split at written
    · cases written
      obtain ⟨larger, nextStands, content⟩ := later next rfl
      refine ⟨rfl, agrees, ?_, ?_⟩
      · intro impossible
        cases impossible
      · intro total given
        cases given
        exact ⟨next, larger, rfl, nextStands, rfl, content⟩
    · cases written
      exact ⟨rfl, agrees, fun _ => found.symm, fun _ impossible =>
        nomatch impossible⟩

/-- Every request keeps the sidecar in step with the parts. -/
theorem Tracked.Sound.step (sound : tracked.Sound) {event : S3Event}
    {next : Tracked cfg} (taken : trackedStep cfg tracked event = some next) : next.Sound := by
  cases event with
  | write body =>
    rw [trackedStep] at taken
    cases found : tracked.st.sidecar with
    | none =>
      simp only [s3Write, found] at taken
      cases taken
      refine ⟨fun session saved => ?_, sound.blobs⟩
      rw [found] at saved
      cases saved
    | some session =>
      obtain ⟨contents, stands, content⟩ := sound.session session found
      split at taken
      · rename_i after written
        cases taken
        obtain ⟨blobs, agrees, same, _⟩ := s3Write_spec found stands written
        refine ⟨fun other saved => ?_, by rw [blobs]; exact sound.blobs⟩
        rw [same rfl, found] at saved
        cases saved
        exact ⟨contents, stands.of_agrees agrees, content⟩
      · rename_i after total written
        cases taken
        obtain ⟨blobs, agrees, _, success⟩ := s3Write_spec found stands written
        obtain ⟨later, larger, saved, laterStands, _, more⟩ := success total rfl
        refine ⟨fun other given => ?_, by rw [blobs]; exact sound.blobs⟩
        rw [saved] at given
        cases given
        refine ⟨larger, laterStands, ?_⟩
        rw [more, content]
  | commit expect fates =>
    cases taken
    cases found : tracked.st.sidecar with
    | none =>
      have same : s3Commit cfg tracked.st expect fates = (tracked.st, none) := by
        simp only [s3Commit, found]
      rw [same]
      exact sound
    | some session =>
      obtain ⟨contents, stands, content⟩ := sound.session session found
      cases committed : s3Commit cfg tracked.st expect fates with
      | mk after result =>
      obtain ⟨multipart, agrees, settles⟩ := s3Commit_spec found stands sound.blobs committed
      refine ⟨fun other saved => ?_, settles.blobs⟩
      rcases settles.sidecar with same | gone
      · rw [same, found] at saved
        cases saved
        refine ⟨contents, stands.of_agrees fun number small => ?_, content⟩
        rw [settles.parts]
        exact agrees number small
      · rw [gone] at saved
        cases saved
  | abort fate removes =>
    cases taken
    refine ⟨fun session saved => ?_, ?_⟩
    · have kept : tracked.st.sidecar = some session := by
        cases removes with
        | true => cases saved
        | false =>
          rw [← sidecar_abortMultipart fate]
          exact saved
      obtain ⟨contents, stands, content⟩ := sound.session session kept
      refine ⟨contents, stands.of_agrees fun number _ => ?_, content⟩
      rw [parts_deleteSidecar, parts_abortMultipart]
    · rw [blobs_deleteSidecar, blobs_abortMultipart]
      exact sound.blobs

end Runs

structure SavedInvariant {cfg : S3Config} (tracked : Tracked cfg)
    (session : S3Session cfg.hash) (uploaded : List Content) : Prop where
  held : ∀ index data, uploaded[index]? = some data →
    tracked.st.multipart.parts.lookup (index + 1) = some data
  recorded : session.parts = recordParts cfg uploaded
  hashed : session.hashState = cfg.hash.after (uploaded.flatten ++ session.tail)
  total : session.total = (session.parts.map S3Part.size).sum + session.tail.length
  large : ∀ part ∈ session.parts, s3MinPartSize ≤ part.size
  acknowledged : uploaded.flatten ++ session.tail = tracked.acknowledged

/-- A commit in a state of a run. -/
structure CommitStores {cfg : S3Config} (tracked : Tracked cfg) : Prop where
  /-- the acknowledged bytes are under their digest afterwards, or what the bucket
  held under it before -/
  stores : ∀ expect fates after hex size,
    s3Commit cfg tracked.st expect fates = (after, some (hex, size)) →
      hex = cfg.hash.digest tracked.acknowledged ∧ size = tracked.acknowledged.length ∧
      ∃ stored, after.blobs.lookup hex = some stored ∧ cfg.hash.digest stored = hex ∧
        (stored = tracked.acknowledged ∨ tracked.st.blobs.lookup hex = some stored)
  /-- while the upload is open a commit none of whose calls fails succeeds -/
  succeeds : ∀ session expect, tracked.st.sidecar = some session →
    tracked.st.multipart.isOpen = true →
      meets (cfg.hash.digest tracked.acknowledged) expect = true →
        (s3Commit cfg tracked.st expect {}).2 =
          some (cfg.hash.digest tracked.acknowledged, tracked.acknowledged.length)

theorem sum_sizes_recordParts :
    ((recordParts cfg contents).map S3Part.size).sum = contents.flatten.length := by
  induction contents using reverseRecOn with
  | nil => rfl
  | append_singleton before data ih =>
    rw [recordParts_append, map_append, List.sum_append, ih]
    simp

theorem mem_recordParts {cfg : S3Config} {contents : List Content}
    (mem : part ∈ recordParts cfg contents) :
    ∃ data ∈ contents, part.size = data.length := by
  rw [recordParts, mem_mapIdx] at mem
  obtain ⟨index, small, rfl⟩ := mem
  exact ⟨contents[index], getElem_mem small, rfl⟩

/-- In every run on a session the invariant of the saved session holds, a
successful commit stores the acknowledged bytes, and the ranges of a copy cover
the object in order. -/
theorem s3Session_runs (cfg : S3Config) (blobs : Dict Content)
    (addressed : Addressed cfg.hash blobs) (events : List S3Event) (tracked : Tracked cfg)
    (reached : run (trackedStep cfg) ⟨{ blobs }, []⟩ events = some tracked) :
    (∀ session, tracked.st.sidecar = some session →
      ∃ uploaded, SavedInvariant tracked session uploaded) ∧
    CommitStores tracked ∧ ∀ size, Tiles size 0 (copyRanges size) := by
  have start : (⟨{ blobs }, []⟩ : Tracked cfg).Sound := by
    refine ⟨fun session saved => ?_, addressed⟩
    cases saved
    refine ⟨[], ⟨rfl, fun index data impossible => ?_, ?_, rfl,
      fun data impossible => nomatch impossible⟩, rfl⟩
    · cases impossible
    · exact (cfg.hash.write_nil _).symm
  have along : Along (trackedStep cfg) (fun _ _ => True) ⟨{ blobs }, []⟩
      events := Along.of_events fun _ _ => trivial
  have sound : tracked.Sound := by
    apply run_invariant _ start along reached
    intro state event next kept _ taken
    exact kept.step taken
  refine ⟨?_, ?_, fun size => tiles_copyRangesFrom size 0 (zero_le _)⟩
  · intro session saved
    obtain ⟨uploaded, stands, content⟩ := sound.session session saved
    refine ⟨uploaded, stands.stored, stands.recorded, stands.hashed, ?_, ?_, content⟩
    · rw [stands.recorded, sum_sizes_recordParts, stands.counted, length_append]
    · intro part member
      rw [stands.recorded] at member
      obtain ⟨data, among, same⟩ := mem_recordParts member
      rw [same]
      exact stands.large data among
  constructor
  · intro expect fates after hex size committed
    cases found : tracked.st.sidecar with
    | none =>
      simp only [s3Commit, found] at committed
      cases committed
    | some session =>
      obtain ⟨contents, stands, content⟩ := sound.session session found
      obtain ⟨_, _, settles⟩ := s3Commit_spec found stands sound.blobs committed
      obtain ⟨named, counted, stored, held, same⟩ := settles.answer hex size rfl
      rw [content] at named counted same
      exact ⟨named, counted, stored, held, settles.blobs hex stored held, same⟩
  · intro session expect found isOpen expected
    obtain ⟨contents, stands, content⟩ := sound.session session found
    have named : cfg.hash.sum session.hashState = cfg.hash.digest tracked.acknowledged := by
      rw [stands.hashed, content]
      rfl
    rw [← named] at expected ⊢
    rw [s3Commit_succeeds found stands isOpen expected, stands.counted, content]

def plainHash : Hash where
  State := Content
  init := []
  write := (· ++ ·)
  sum content := String.ofList (content.map fun byte => Char.ofNat byte.toNat)
  write_nil := List.append_nil
  write_append := List.append_assoc

section Retried

variable (chunk : Content)

/-- Five reads of the buffer make the smallest part. -/
def fullChunks : List (Content × Fate) :=
  replicate 5 (chunk, .done)

/-- A write of a whole part whose reader fails at the end, the same again, and two
more bytes. -/
def retriedWrite : List S3Event :=
  [.write ⟨fullChunks chunk, false, true⟩, .write ⟨fullChunks chunk, true, true⟩,
    .write ⟨[([1, 2], .done)], true, true⟩]

variable {chunk} (size : chunk.length = 1048576)
include size

/-- The part is recorded once. -/
theorem run_retriedWrite (cfg : S3Config) : ∃ tracked,
    run (trackedStep cfg) ⟨{}, []⟩ (retriedWrite chunk) = some tracked ∧
      tracked.acknowledged = (fullChunks chunk).flatMap fst ++ [1, 2] ∧ tracked.st.blobs = ∅ ∧
      tracked.st.multipart.isOpen = true ∧ ∃ session, tracked.st.sidecar = some session ∧
        session.parts.map S3Part.size = [s3MinPartSize] := by
  simp [retriedWrite, run, trackedStep, s3Write, fullChunks, replicate, writeLoop, size,
    s3MinPartSize, uploadPart, Fate.effective, Fate.reported, S3Body.content]

theorem length_fullChunks : ((fullChunks chunk).flatMap fst).length = s3MinPartSize := by
  simp [fullChunks, replicate, size, s3MinPartSize]

end Retried

/-- What one read of `Write` gives at most. -/
def mebibyte : Content :=
  replicate (1024 * 1024) 0

theorem length_mebibyte : mebibyte.length = 1048576 :=
  length_replicate

/-- A commit then stores all bytes. -/
theorem retriedWrite_runs : ∃ tracked after hex,
    run (trackedStep ⟨plainHash, fun _ => ""⟩) ⟨{}, []⟩ (retriedWrite mebibyte) = some tracked ∧
      tracked.st.sidecar.map (·.parts.map S3Part.size) = some [s3MinPartSize] ∧
      s3Commit ⟨plainHash, fun _ => ""⟩ tracked.st "" {} =
        (after, some (hex, s3MinPartSize + 2)) ∧
      after.blobs.lookup hex = some ((fullChunks mebibyte).flatMap fst ++ [1, 2]) := by
  obtain ⟨tracked, reached, acknowledged, bare, isOpen, session, saved, sizes⟩ :=
    run_retriedWrite length_mebibyte ⟨plainHash, fun _ => ""⟩
  obtain ⟨-, commits, -⟩ := s3Session_runs ⟨plainHash, fun _ => ""⟩ ∅
    (fun _ _ impossible => nomatch impossible) (retriedWrite mebibyte) tracked reached
  have succeeds := commits.succeeds session "" saved isOpen rfl
  cases committed : s3Commit ⟨plainHash, fun _ => ""⟩ tracked.st "" {} with
  | mk after result =>
    rw [committed] at succeeds
    obtain rfl : result = _ := succeeds
    obtain ⟨-, -, stored, held, -, same⟩ := commits.stores _ _ _ _ _ committed
    rw [bare] at same
    obtain rfl | impossible := same
    · have total : tracked.acknowledged.length = s3MinPartSize + 2 := by
        rw [acknowledged, length_append, length_fullChunks length_mebibyte]
        rfl
      refine ⟨tracked, after, _, reached, ?_, ?_, held.trans (congrArg some acknowledged)⟩
      · rw [saved, Option.map_some, sizes]
      · rw [committed, total]
    · cases impossible

end Cornus.Storage
