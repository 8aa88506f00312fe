import Cornus.Storage.Uploads

/-!
# Integrity of stored blobs

Every object under a blob path has the content its path names.  The staged
upload and `PutBlob` keep this in every run: what they store is the copy they
hashed.  The filesystem upload renames the very file that other requests may
still append to, and keeps it as long as nobody appends to a file between the
moment a commit has read it to its end and the end of time.
-/

namespace Cornus.Storage

open Lib List AList Nat Dict

namespace UploadState

def Intact (cfg : UploadConfig) (st : UploadState) : Prop :=
  ∀ hex file, st.objects.lookup (blobPath hex) = some file → cfg.sha256 (st.content file) = hex

def Unnamed (st : UploadState) (file : Nat) : Prop :=
  ∀ key, st.objects.lookup key ≠ some file

def SessionFile (st : UploadState) (id : String) (file : Nat) : Prop :=
  id ∈ st.issued ∧ file < st.files.length ∧
    ∀ other, st.sessions.lookup id = some other → other = file

end UploadState

/-- The file whose digest a commit has taken and is about to act on. -/
def Request.hashedFile : Request → Option Nat
  | .hashed _ file _ => some file
  | .moving _ file _ => some file
  | _ => none

variable (cfg : UploadConfig) (st : UploadState)

/-- The step does not append to a session file that is stored as a blob or whose
digest a commit has already taken.  A staged upload has no such condition. -/
def apart : UploadEvent → Bool
  | .act p (.write _) =>
    match st.requests[p]? with
    | some (.writing _ file _) =>
      !cfg.native || st.objects.entries.all (fun object => object.2 != file) &&
          st.requests.all fun request => request.hashedFile != some file
    | _ => true
  | _ => true

def Request.Good : Request → Prop
  | .writing _ file _ =>
    file < st.files.length ∧ (cfg.native = false → st.Unnamed file)
  | .hashing id file _ read =>
    cfg.native = true ∧ st.SessionFile id file ∧ read <+: st.content file
  | .hashed id file hex =>
    cfg.native = true ∧ st.SessionFile id file ∧ cfg.sha256 (st.content file) = hex
  | .moving id file hex =>
    cfg.native = true ∧ st.SessionFile id file ∧ cfg.sha256 (st.content file) = hex
  | .buffering _ _ tmp taken => tmp = taken
  | .buffered _ tmp hex => cfg.sha256 tmp = hex
  | .copying _ tmp out hex => cfg.sha256 tmp = hex ∧ out <+: tmp
  | .storing _ out hex => cfg.sha256 out = hex
  | _ => True

structure UploadState.Sound : Prop where
  objects : ∀ key file, st.objects.lookup key = some file →
    file < st.files.length ∧ key = blobPath (cfg.sha256 (st.content file))
  sessions : ∀ id file, st.sessions.lookup id = some file →
    st.SessionFile id file ∧ (cfg.native = false → st.Unnamed file)
  requests : ∀ request ∈ st.requests, request.Good cfg st

theorem blobPath_injective (same : blobPath hex = blobPath other) : hex = other := by
  have chars := congrArg String.toList same
  simp only [blobPath, String.toList_append, String.toList_ofList] at chars
  have lengths := congrArg List.length chars
  simp only [length_append, length_take] at lengths
  have equal : hex.toList.length = other.toList.length := by omega
  exact String.toList_injective (append_inj' chars equal).2

namespace UploadState

variable {cfg : UploadConfig} {st : UploadState}

theorem Sound.intact (sound : st.Sound cfg) : st.Intact cfg := by
  intro hex file found
  exact (blobPath_injective (sound.objects _ _ found).2).symm

theorem sound_empty : Sound cfg {} where
  objects _ _ found := nomatch found
  sessions _ _ found := nomatch found
  requests _ member := nomatch member

variable {request : Request}

theorem Sound.ofRequests {requests : List Request} (sound : st.Sound cfg)
    (good : ∀ request ∈ requests, request.Good cfg st) :
    ({ st with requests } : UploadState).Sound cfg where
  __ := sound
  requests other member := by
    have held := good other member
    cases other <;> exact held

theorem Sound.setRequest (sound : st.Sound cfg) (good : request.Good cfg st) :
    (st.setRequest p request).Sound cfg := by
  apply sound.ofRequests
  intro other member
  rcases mem_or_eq_of_mem_set member with before | rfl
  · exact sound.requests other before
  · exact good

theorem Sound.addRequest (sound : st.Sound cfg) (good : request.Good cfg st) :
    (st.addRequest request).Sound cfg :=
  sound.ofRequests (forall_mem_append.mpr ⟨sound.requests, forall_mem_singleton.mpr good⟩)

theorem content_append_self (present : file < st.files.length) (data : Content) :
    (st.append file data).content file = st.content file ++ data := by
  simp [append, content, present]

theorem content_append_of_ne (ne : file ≠ other) (data : Content) :
    (st.append file data).content other = st.content other := by
  simp [append, content, ne]

theorem Sound.append (sound : st.Sound cfg) (present : file < st.files.length)
    (data : Content) (unnamed : st.Unnamed file)
    (unhashed : ∀ request ∈ st.requests, request.hashedFile ≠ some file) :
    (st.append file data).Sound cfg where
  objects key other found := by
    obtain ⟨below, named⟩ := sound.objects key other found
    have ne : file ≠ other := by
      intro same
      exact unnamed key (same ▸ found)
    rw [content_append_of_ne ne]
    exact ⟨by simpa [UploadState.append] using below, named⟩
  sessions id other found := by
    obtain ⟨⟨drawn, below, named⟩, apart⟩ := sound.sessions id other found
    exact ⟨⟨drawn, by simpa [UploadState.append] using below, named⟩, apart⟩
  requests request member := by
    have good := sound.requests request member
    have lengths : (st.append file data).files.length = st.files.length := by
      simp [UploadState.append]
    have kept : ∀ other, request.hashedFile = some other →
        (st.append file data).content other = st.content other := by
      intro other same
      apply content_append_of_ne
      intro equal
      exact unhashed request member (equal ▸ same)
    cases request with
    | writing id other goal => exact ⟨lengths ▸ good.1, good.2⟩
    | hashing id other expect read =>
      obtain ⟨native, ⟨drawn, below, named⟩, begins⟩ := good
      refine ⟨native, ⟨drawn, lengths ▸ below, named⟩, begins.trans ?_⟩
      by_cases same : file = other
      · subst same
        rw [content_append_self present]
        exact prefix_append _ _
      · simp only [content_append_of_ne same, prefix_rfl]
    | hashed id other hex | moving id other hex =>
      obtain ⟨native, ⟨drawn, below, named⟩, digest⟩ := good
      exact ⟨native, ⟨drawn, lengths ▸ below, named⟩, kept other rfl ▸ digest⟩
    | _ => exact good

/-- Facts about a request survive every change that keeps the content of files,
rebinds no id that was issued and, for staged uploads, names no file that was
there. -/
structure Extends (cfg : UploadConfig) (st next : UploadState) : Prop where
  content : ∀ file, file < st.files.length → next.content file = st.content file
  grows : st.files.length ≤ next.files.length
  issued : ∀ id, id ∈ st.issued → id ∈ next.issued
  sessions : ∀ id file, id ∈ st.issued →
    next.sessions.lookup id = some file → st.sessions.lookup id = some file
  unnamed : ∀ file, file < st.files.length → cfg.native = false →
    st.Unnamed file → next.Unnamed file

variable {next : UploadState} {id : String}

theorem Extends.sessionFile (extends_ : Extends cfg st next)
    (session : st.SessionFile id file) : next.SessionFile id file := by
  obtain ⟨drawn, below, named⟩ := session
  refine ⟨extends_.issued id drawn, lt_of_lt_of_le below extends_.grows, ?_⟩
  intro other found
  exact named other (extends_.sessions id other drawn found)

theorem Extends.good (extends_ : Extends cfg st next)
    (good : request.Good cfg st) : request.Good cfg next := by
  cases request with
  | writing id file goal =>
    refine ⟨lt_of_lt_of_le good.1 extends_.grows, ?_⟩
    intro staged
    exact extends_.unnamed file good.1 staged (good.2 staged)
  | hashing id file expect read =>
    obtain ⟨native, session, begins⟩ := good
    refine ⟨native, extends_.sessionFile session, ?_⟩
    rw [extends_.content file session.2.1]
    exact begins
  | hashed id file hex | moving id file hex =>
    obtain ⟨native, session, digest⟩ := good
    refine ⟨native, extends_.sessionFile session, ?_⟩
    rw [extends_.content file session.2.1]
    exact digest
  | _ => exact good

theorem Sound.extend (sound : st.Sound cfg) (extended : Extends cfg st next)
    (objects : ∀ key file, next.objects.lookup key = some file →
      st.objects.lookup key = some file ∨ file < next.files.length ∧
        key = blobPath (cfg.sha256 (next.content file)))
    (sessions : ∀ id file, next.sessions.lookup id = some file →
      st.sessions.lookup id = some file ∨ next.SessionFile id file ∧
        (cfg.native = false → next.Unnamed file))
    (same : next.requests = st.requests) : next.Sound cfg := by
  refine ⟨?_, ?_, ?_⟩
  · intro key file found
    rcases objects key file found with old | new
    · obtain ⟨below, named⟩ := sound.objects key file old
      rw [extended.content file below]
      exact ⟨lt_of_lt_of_le below extended.grows, named⟩
    · exact new
  · intro id file found
    rcases sessions id file found with old | new
    · obtain ⟨session, unnamed⟩ := sound.sessions id file old
      refine ⟨extended.sessionFile session, ?_⟩
      intro staged
      exact extended.unnamed file session.2.1 staged (unnamed staged)
    · exact new
  · intro request mem
    rw [same] at mem
    exact extended.good (sound.requests request mem)

theorem Sound.dropSession (sound : st.Sound cfg) (id : String) : (st.dropSession id).Sound cfg := by
  have rest : ∀ other file, (st.dropSession id).sessions.lookup other = some file →
        st.sessions.lookup other = some file := by
    intro other file found
    obtain ⟨_, found⟩ := lookup_erase_eq_some_iff.mp found
    exact found
  have extended : Extends cfg st (st.dropSession id) :=
    ⟨fun _ _ => rfl, le_refl _, fun _ drawn => drawn,
      fun other file _ => rest other file, fun _ _ _ unnamed => unnamed⟩
  exact sound.extend extended (fun _ _ => .inl) (fun other file found => .inl (rest _ _ found)) rfl

theorem Sound.bind (sound : st.Sound cfg) (native : cfg.native = true)
    (present : file < st.files.length) :
    (st.bind (blobPath (cfg.sha256 (st.content file))) file).Sound cfg := by
  have extended : Extends cfg st (st.bind (blobPath (cfg.sha256 (st.content file))) file) :=
    ⟨fun _ _ => rfl, le_refl _, fun _ drawn => drawn,
      fun _ _ _ found => found, fun _ _ staged => by simp [native] at staged⟩
  refine sound.extend extended ?_ (fun _ _ => .inl) rfl
  intro key other found
  rcases lookup_insert_eq_some_iff.mp found with ⟨rfl, rfl⟩ | ⟨_, found⟩
  · exact .inr ⟨present, rfl⟩
  · exact .inl found

theorem content_of_new (present : file < st.files.length) (new : Content) :
    (((st.files ++ [new])[file]?).getD [] : Content) = st.content file := by
  rw [content, getElem?_append_left present]

theorem Sound.store (sound : st.Sound cfg) (out : Content) :
    (({ st with files := st.files ++ [out] } : UploadState).bind
      (blobPath (cfg.sha256 out)) st.files.length).Sound cfg := by
  have lengths : (st.files ++ [out]).length = st.files.length + 1 := by simp
  have extended : Extends cfg st (({ st with files := st.files ++ [out] } : UploadState).bind
        (blobPath (cfg.sha256 out)) st.files.length) := by
    refine ⟨fun file present => content_of_new present out, ?_,
      fun _ drawn => drawn, fun _ _ _ found => found, ?_⟩
    · change st.files.length ≤ (st.files ++ [out]).length
      omega
    · intro file present _ unnamed key found
      rcases lookup_insert_eq_some_iff.mp found with ⟨_, rfl⟩ | ⟨_, found⟩
      · exact lt_irrefl _ present
      · exact unnamed key found
  refine sound.extend extended ?_ (fun _ _ => .inl) rfl
  intro key file found
  rcases lookup_insert_eq_some_iff.mp found with ⟨rfl, rfl⟩ | ⟨_, found⟩
  · refine .inr ⟨?_, ?_⟩
    · change st.files.length < (st.files ++ [out]).length
      omega
    · simp [UploadState.bind, content]
  · exact .inl found

theorem Sound.newUpload (sound : st.Sound cfg) (new : id ∉ st.issued) : ({ st with
      files := st.files ++ [[]]
      sessions := st.sessions.put id st.files.length
      issued := id :: st.issued } : UploadState).Sound cfg := by
  have lengths : (st.files ++ [[]]).length = st.files.length + 1 := by simp
  have extended : Extends cfg st { st with
        files := st.files ++ [[]]
        sessions := st.sessions.put id st.files.length
        issued := id :: st.issued } := by
    refine ⟨fun file present => content_of_new present [], ?_,
      fun _ drawn => mem_cons_of_mem _ drawn, ?_, fun _ _ _ unnamed => unnamed⟩
    · change st.files.length ≤ (st.files ++ [[]]).length
      omega
    · intro other file drawn found
      have ne : other ≠ id := fun same => new (same ▸ drawn)
      change (st.sessions.put _ _).lookup other = some file at found
      rw [put, lookup_insert_ne ne] at found
      exact found
  refine sound.extend extended (fun _ _ => .inl) ?_ rfl
  intro other file found
  rcases lookup_insert_eq_some_iff.mp found with ⟨rfl, rfl⟩ | ⟨_, found⟩
  · refine .inr ⟨⟨mem_cons_self, ?_, ?_⟩, ?_⟩
    · change st.files.length < (st.files ++ [[]]).length
      omega
    · intro again named
      change (st.sessions.put _ _).lookup other = some again at named
      rw [put, lookup_insert] at named
      cases named
      rfl
    · intro _ key named
      exact lt_irrefl _ (sound.objects key _ named).1
  · exact .inl found

end UploadState

variable {cfg : UploadConfig} {st next : UploadState}

theorem good_bufferedOr (same : tmp = taken) :
    (bufferedOr cfg session expect tmp taken).Good cfg st := by
  unfold bufferedOr
  split
  · exact congrArg cfg.sha256 same
  · trivial

theorem good_afterPut (session : Option String) : (afterPut session).Good cfg st := by
  cases session <;> trivial

variable {read whole : Content}

theorem prefix_of_read (begins : read <+: whole)
    (n : Nat) : read ++ (whole.drop read.length).take n <+: whole := by
  obtain ⟨rest, rfl⟩ := begins
  rw [drop_left]
  exact (prefix_append_right_inj read).mpr (List.take_prefix n rest)

theorem eq_of_read_nil (begins : read <+: whole)
    (ended : (whole.drop read.length).take (n + 1) = []) : read = whole := by
  obtain ⟨rest, rfl⟩ := begins
  rw [drop_left] at ended
  cases rest with
  | nil => rw [append_nil]
  | cons first others => cases ended

theorem quiet_of_apart {id : String} (sound : st.Sound cfg)
    (found : st.requests[p]? = some (.writing id file goal))
    (permitted : apart cfg st (.act p (.write data)) = true) :
    st.Unnamed file ∧ ∀ request ∈ st.requests, request.hashedFile ≠ some file := by
  simp only [apart, found] at permitted
  cases native : cfg.native with
  | false =>
    have mem := mem_of_getElem? found
    refine ⟨(sound.requests _ mem).2 native, ?_⟩
    intro request held same
    have good := sound.requests request held
    cases request <;> cases same <;> exact absurd good.1 (by simp [native])
  | true =>
    rw [native, Bool.not_true, Bool.false_or, Bool.and_eq_true,
      all_eq_true, all_eq_true] at permitted
    constructor
    · intro key named
      have stored := permitted.1 ⟨key, file⟩ (mem_lookup_iff.mp named)
      simp at stored
    · intro request held
      simpa using permitted.2 request held

theorem act_sound (sound : st.Sound cfg) (found : st.requests[p]? = some request)
    (permitted : apart cfg st (.act p action) = true)
    (taken : act cfg st p request action = some next) : next.Sound cfg := by
  have good := sound.requests request (mem_of_getElem? found)
  unfold act at taken
  split at taken
  · -- `GetUpload` opens the session, or it is gone.
    split at taken <;> cases taken
    · exact sound.setRequest trivial
    rename_i file named
    obtain ⟨session, unnamed⟩ := sound.sessions _ _ named
    exact sound.setRequest ⟨session.2.1, unnamed⟩
  · -- An append: the only step on a file that others may see.
    cases taken
    obtain ⟨unnamed, unhashed⟩ := quiet_of_apart sound found permitted
    exact sound.append good.1 _ unnamed unhashed
  · cases taken
    split
    · exact sound.setRequest trivial
    · exact sound.setRequest trivial
  · -- `CommitUpload` opens the session file for reading.
    split at taken <;> cases taken
    · exact sound.setRequest trivial
    rename_i file named
    split
    · rename_i native
      have session := (sound.sessions _ _ named).1
      exact sound.setRequest ⟨native, session, nil_prefix⟩
    · exact sound.setRequest (Eq.refl [])
  · -- A read for the digest; an empty one ends it.
    obtain ⟨native, session, begins⟩ := good
    split at taken <;> cases taken
    · rename_i ended
      split
      · apply sound.setRequest
        rw [eq_of_read_nil begins ended]
        exact ⟨native, session, rfl⟩
      · exact sound.setRequest trivial
    · exact sound.setRequest ⟨native, session, prefix_of_read begins _⟩
  · split at taken <;> cases taken
    · exact sound.setRequest trivial
    · exact sound.setRequest good
  · -- The rename: the id still names the file that was hashed.
    obtain ⟨native, session, digest⟩ := good
    split at taken <;> cases taken
    · exact sound.setRequest trivial
    rename_i file named
    have same := session.2.2 _ named
    subst same
    subst digest
    exact ((sound.dropSession _).bind native session.2.1).setRequest trivial
  · cases taken
    exact (sound.dropSession _).setRequest trivial
  · cases taken
    have same : _ = _ := good
    exact sound.setRequest (congrArg (· ++ _) same)
  · cases taken
    exact sound.setRequest (good_bufferedOr good)
  · split at taken <;> cases taken
    · exact sound.setRequest (good_bufferedOr good)
    · have same : _ = _ := good
      exact sound.setRequest (congrArg (· ++ _) same)
  · split at taken <;> cases taken
    · exact sound.setRequest (good_afterPut _)
    · exact sound.setRequest ⟨good, nil_prefix⟩
  · obtain ⟨digest, begins⟩ := good
    split at taken <;> cases taken
    · rename_i ended
      apply sound.setRequest
      rw [eq_of_read_nil begins ended]
      exact digest
    · exact sound.setRequest ⟨digest, prefix_of_read begins _⟩
  · -- `Put` renames a file that nobody else has open.
    cases taken
    have digest : cfg.sha256 _ = _ := good
    subst digest
    exact (sound.store _).setRequest (good_afterPut _)
  · cases taken
    exact sound.setRequest trivial
  · cases taken

/-- One event keeps every stored blob whole. -/
theorem uploadStep_sound (sound : st.Sound cfg) (permitted : apart cfg st event = true)
    (taken : uploadStep cfg st event = some next) : next.Sound cfg := by
  cases event with
  | newUpload id =>
    rw [uploadStep] at taken
    split at taken <;> cases taken
    rename_i new
    exact sound.newUpload new
  | patch id | put id expect =>
    rw [uploadStep] at taken
    split at taken <;> cases taken
    · exact sound
    · exact sound.addRequest trivial
  | putBlob expect =>
    cases taken
    exact sound.addRequest (Eq.refl [])
  | abortUpload id =>
    cases taken
    exact sound.dropSession id
  | act p action =>
    rw [uploadStep] at taken
    split at taken
    · cases taken
    rename_i request found
    exact act_sound sound found permitted taken

def RunsIntact (cfg : UploadConfig) (allowed : UploadState → UploadEvent → Prop) : Prop :=
  ∀ events final, Along (uploadStep cfg) allowed {} events →
    run (uploadStep cfg) {} events = some final → final.Intact cfg

/-- As long as nobody appends to a file whose digest a commit has taken, every
blob keeps the content its path names.  The condition is void for the staged
upload and for `PutBlob`. -/
theorem runsIntact_of_apart (cfg : UploadConfig) :
    RunsIntact cfg fun st event => apart cfg st event = true := by
  intro events final along reached
  have sound : final.Sound cfg := by
    apply run_invariant _ UploadState.sound_empty along reached
    intro st event next sound permitted taken
    exact uploadStep_sound sound permitted taken
  exact sound.intact

/-- A commit has renamed the session file when a `PATCH` that opened it before
appends once more. -/
def lateAppend : List UploadEvent :=
  [.newUpload "u", .patch "u", .act 0 .openSession, .act 0 (.write [1]),
    .put "u" "", .act 1 .openSession, .act 1 .commit, .act 1 (.read 0),
    .act 1 (.read 0), .act 1 .stat, .act 1 .rename, .act 0 (.write [2])]

theorem lateAppend_not_runsIntact : ¬∃ sha256 : Content → String, sha256 [1] ≠ sha256 [1, 2] ∧
      RunsIntact ⟨true, sha256⟩ fun _ _ => True := by
  rintro ⟨sha256, different, intact⟩
  obtain ⟨final, reached, stored, grown⟩ : ∃ final : UploadState,
      run (uploadStep ⟨true, sha256⟩) {} lateAppend = some final ∧
        final.objects.lookup (blobPath (sha256 [1])) = some 0 ∧ final.content 0 = [1, 2] :=
    ⟨_, rfl, lookup_insert _, rfl⟩
  have whole := intact lateAppend final
    (Along.of_events fun _ _ => trivial) reached (sha256 [1]) 0 stored
  rw [grown] at whole
  exact different whole.symm

def earlyAppend : List UploadEvent :=
  [.newUpload "u", .patch "u", .act 0 .openSession, .act 0 (.write [1]),
    .put "u" "sha256:2", .act 0 (.write [2]), .act 1 .openSession,
    .act 1 .commit, .act 1 (.read 0), .act 1 (.read 9), .act 1 (.read 9),
    .act 1 .stat, .act 1 .rename]

/-- A digest function that tells contents apart by their length. -/
def lengthConfig : UploadConfig :=
  { native := true
    sha256 := fun content => toString content.length }

theorem earlyAppend_intact : ∃ final, run (uploadStep lengthConfig) {} earlyAppend = some final ∧
      final.objects.lookup (blobPath "2") = some 0 ∧ final.Intact lengthConfig := by
  have observed : (run (uploadStep lengthConfig) {} earlyAppend).map
      (fun final => final.objects.lookup (blobPath "2")) = some (some 0) := by
    decide +kernel
  obtain ⟨final, reached, stored⟩ := Option.map_eq_some_iff.mp observed
  refine ⟨final, reached, stored, ?_⟩
  apply runsIntact_of_apart lengthConfig earlyAppend final _ reached
  decide +kernel

end Cornus.Storage
