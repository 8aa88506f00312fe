import Cornus.Storage.ManifestRefinement

/-!
# Registry requests: their paths, and manifest pushes

`parsePath` reads a repository name, a kind and a reference off a URL path by
looking for one marker after the other.  `putManifest` is the push of a
manifest; the reference is compared with the digest once the content is stored.
-/

namespace Cornus.Registry

open List AList

/-- What a request is about. -/
inductive Kind where
  | blobUpload
  | tags
  | referrers
  | blob
  | manifest
  deriving DecidableEq

def uploadsMark : List Char := "/blobs/uploads".toList
def tagsMark : List Char := "/tags/list".toList
def referrersMark : List Char := "/referrers/".toList
def blobsMark : List Char := "/blobs/".toList
def manifestsMark : List Char := "/manifests/".toList

/-- The name, the kind and the reference of a path. -/
abbrev Parsed := Option (List Char × Kind × List Char)

def answer (name : List Char) (kind : Kind) (ref : List Char) (ok : Bool) : Parsed :=
  if ok then some (name, kind, ref) else none

def trimSlash : List Char → List Char
  | '/' :: rest => rest
  | rest => rest

/-- The marks in the order of the source. -/
def parseRest (rest : List Char) : Parsed :=
  match cutFirst uploadsMark rest with
  | some (name, after) =>
    answer name .blobUpload (trimSlash after) (name ≠ [])
  | none =>
    if tagsMark <:+ rest then
      let name := rest.take (rest.length - tagsMark.length)
      answer name .tags [] (name ≠ [])
    else
      match cutLast referrersMark rest with
      | some (name, ref) => answer name .referrers ref (name ≠ [] ∧ ref ≠ [])
      | none =>
        match cutLast blobsMark rest with
        | some (name, ref) => answer name .blob ref (name ≠ [] ∧ ref ≠ [])
        | none =>
          match cutLast manifestsMark rest with
          | some (name, ref) =>
            answer name .manifest ref (name ≠ [] ∧ ref ≠ [])
          | none => none

/-- `parsePath`. -/
def parsePath (p : List Char) : Parsed :=
  if "/v2/".toList <+: p then parseRest (p.drop 4) else none

/-- A tag or a digest: one path segment. -/
structure Reference where
  text : List Char
  notEmpty : text ≠ []
  whole : '/' ∉ text

/-- The endpoints of the distribution API. -/
inductive Endpoint where
  | uploads (id : List Char)
  | tags
  | referrers (digest : Reference)
  | blob (digest : Reference)
  | manifest (ref : Reference)

namespace Endpoint

def tail : Endpoint → List Char
  | .uploads id => uploadsMark ++ '/' :: id
  | .tags => tagsMark
  | .referrers digest => referrersMark ++ digest.text
  | .blob digest => blobsMark ++ digest.text
  | .manifest ref => manifestsMark ++ ref.text

def kind : Endpoint → Kind
  | .uploads _ => .blobUpload
  | .tags => .tags
  | .referrers _ => .referrers
  | .blob _ => .blob
  | .manifest _ => .manifest

def ref : Endpoint → List Char
  | .uploads id => id
  | .tags => []
  | .referrers digest => digest.text
  | .blob digest => digest.text
  | .manifest ref => ref.text

/-- The path has none of the markers that are looked for before its own; an
upload's own marker does not begin any earlier. -/
def Clear (name : List Char) : Endpoint → Prop
  | .uploads _ => ¬uploadsMark <:+: name ++ uploadsMark.dropLast
  | .tags => ¬uploadsMark <:+: name ++ tagsMark
  | .referrers digest =>
    ¬uploadsMark <:+: name ++ (referrersMark ++ digest.text)
  | .blob digest =>
    ¬uploadsMark <:+: name ++ (blobsMark ++ digest.text) ∧
      ¬referrersMark <:+: name ++ (blobsMark ++ digest.text)
  | .manifest ref =>
    ¬uploadsMark <:+: name ++ (manifestsMark ++ ref.text) ∧
      ¬referrersMark <:+: name ++ (manifestsMark ++ ref.text) ∧
      ¬blobsMark <:+: name ++ (manifestsMark ++ ref.text)

end Endpoint

/-- The path that a client asks for. -/
def urlPath (name : List Char) (endpoint : Endpoint) : List Char :=
  "/v2/".toList ++ (name ++ endpoint.tail)

variable {name rest : List Char} {kind : Kind}

theorem parsePath_urlPath (name : List Char) (endpoint : Endpoint) :
    parsePath (urlPath name endpoint) = parseRest (name ++ endpoint.tail) := by
  rw [parsePath, urlPath, if_pos (prefix_append _ _)]
  rfl

theorem answer_eq_some {ref : List Char} {parsed}
    (answered : answer name kind ref ok = some parsed) : parsed = (name, kind, ref) := by
  rw [answer] at answered
  split at answered
  · exact (Option.some.inj answered).symm
  · cases answered

theorem parseRest_uploads (found : uploadsMark <:+: rest) {parsed}
    (read : parseRest rest = some parsed) : parsed.2.1 = .blobUpload := by
  rw [parseRest] at read
  cases cut : cutFirst uploadsMark rest with
  | none => exact absurd found ((cutFirst_eq_none (by decide)).mp cut)
  | some parts =>
    rw [cut] at read
    rw [answer_eq_some read]

theorem parseRest_referrers (noUploads : ¬uploadsMark <:+: rest)
    (noTags : ¬tagsMark <:+ rest) (found : referrersMark <:+: rest) {parsed}
    (read : parseRest rest = some parsed) : parsed.2.1 = .referrers := by
  rw [parseRest, (cutFirst_eq_none (by decide)).mpr noUploads, if_neg noTags] at read
  cases cut : cutLast referrersMark rest with
  | none => exact absurd found ((cutLast_eq_none (by decide)).mp cut)
  | some parts =>
    rw [cut] at read
    rw [answer_eq_some read]

theorem parseRest_blob (noUploads : ¬uploadsMark <:+: rest)
    (noTags : ¬tagsMark <:+ rest) (noReferrers : ¬referrersMark <:+: rest)
    (found : blobsMark <:+: rest) {parsed}
    (read : parseRest rest = some parsed) : parsed.2.1 = .blob := by
  rw [parseRest, (cutFirst_eq_none (by decide)).mpr noUploads,
    if_neg noTags, (cutLast_eq_none (by decide)).mpr noReferrers] at read
  cases cut : cutLast blobsMark rest with
  | none => exact absurd found ((cutLast_eq_none (by decide)).mp cut)
  | some parts =>
    rw [cut] at read
    rw [answer_eq_some read]

theorem parseRest_upload_iff (some_ : name ≠ []) (id : List Char) :
    parseRest (name ++ (uploadsMark ++ '/' :: id)) = some (name, .blobUpload, id) ↔
      ¬uploadsMark <:+: name ++ uploadsMark.dropLast := by
  rw [← @cutFirst_append Char _ uploadsMark name ('/' :: id) (by decide), append_assoc]
  constructor
  · intro read
    rw [parseRest] at read
    cases cut : cutFirst uploadsMark (name ++ (uploadsMark ++ '/' :: id)) with
    | some parts =>
      rw [cut] at read
      obtain ⟨front, back⟩ := parts
      have whole := eq_of_cutFirst cut
      have same := congrArg Prod.fst (answer_eq_some read)
      simp only at same
      subst same
      rw [append_assoc] at whole
      rw [append_cancel_left (append_cancel_left whole)]
    | none =>
      have within : uploadsMark <:+: name ++ (uploadsMark ++ '/' :: id) :=
        ⟨name, '/' :: id, append_assoc _ _ _⟩
      exact absurd within ((cutFirst_eq_none (by decide)).mp cut)
  · intro cut
    rw [parseRest, cut]
    simp [answer, trimSlash, some_]

theorem parseRest_tags (some_ : name ≠ []) (noUploads : ¬uploadsMark <:+: name ++ tagsMark) :
    parseRest (name ++ tagsMark) = some (name, .tags, []) := by
  rw [parseRest, (cutFirst_eq_none (by decide)).mpr noUploads, if_pos (suffix_append _ _)]
  simp [answer, some_]

section Segment

variable (ref : Reference)

/-- A path that ends in a two-slash marker and a segment is no list of tags. -/
theorem not_tags {marker front : List Char} {last : Char} (other : last ≠ 'g')
    (shape : marker = front ++ [last, 's', '/']) : ¬tagsMark <:+ name ++ (marker ++ ref.text) := by
  intro ends
  obtain ⟨more, same⟩ := reverse_prefix.mpr ends
  have tags : tagsMark.reverse = ['t', 's', 'i', 'l'] ++ '/' :: ['s', 'g', 'a', 't', '/'] := by
    decide
  rw [tags, shape] at same
  have cut : ['t', 's', 'i', 'l'] ++ '/' :: 's' :: 'g' :: ('a' :: 't' :: '/' ::
      more) = ref.text.reverse ++ '/' :: ('s' :: last :: (front.reverse ++ name.reverse)) := by
    simpa using same
  have rest := (append_cons_inj (by decide) (by simpa using ref.whole) cut).2
  simp only [List.cons.injEq] at rest
  exact other rest.2.1.symm

theorem cutLast_segment (slashes : 2 ≤ marker.count '/') (begins : marker.tail.count '/' ≤ 1) :
    cutLast marker (name ++ (marker ++ ref.text)) = some (name, ref.text) := by
  have some_ : marker ≠ [] := by
    intro empty
    rw [empty] at slashes
    exact absurd slashes (by decide)
  rw [← append_assoc]
  apply cutLast_append _ some_
  intro again
  have least := again.sublist.count_le '/'
  rw [tail_append_of_ne_nil some_, count_append, count_eq_zero_of_not_mem ref.whole] at least
  omega

variable (some_ : name ≠ [])
include some_

theorem parseRest_referrers_iff : parseRest (name ++ (referrersMark ++ ref.text)) =
        some (name, .referrers, ref.text) ↔ (Endpoint.referrers ref).Clear name := by
  constructor
  · intro read found
    cases parseRest_uploads found read
  · intro noUploads
    rw [parseRest, (cutFirst_eq_none (by decide)).mpr noUploads,
      if_neg (@not_tags name ref _ "/referre".toList 'r' (by decide) (by decide)),
      cutLast_segment ref (by decide) (by decide)]
    simp [answer, some_, ref.notEmpty]

theorem parseRest_blob_iff : parseRest (name ++ (blobsMark ++ ref.text)) =
        some (name, .blob, ref.text) ↔ (Endpoint.blob ref).Clear name := by
  have noTags := @not_tags name ref blobsMark "/blo".toList 'b' (by decide) (by decide)
  constructor
  · intro read
    have noUploads : ¬uploadsMark <:+: name ++ (blobsMark ++ ref.text) := by
      intro found
      cases parseRest_uploads found read
    refine ⟨noUploads, fun found => ?_⟩
    cases parseRest_referrers noUploads noTags found read
  · intro clear
    rw [parseRest, (cutFirst_eq_none (by decide)).mpr clear.1, if_neg noTags,
      (cutLast_eq_none (by decide)).mpr clear.2, cutLast_segment ref (by decide) (by decide)]
    simp [answer, some_, ref.notEmpty]

theorem parseRest_manifest_iff : parseRest (name ++ (manifestsMark ++ ref.text)) =
        some (name, .manifest, ref.text) ↔ (Endpoint.manifest ref).Clear name := by
  have noTags := @not_tags name ref manifestsMark "/manifes".toList 't' (by decide) (by decide)
  constructor
  · intro read
    have noUploads : ¬uploadsMark <:+: name ++ (manifestsMark ++ ref.text) := by
      intro found
      cases parseRest_uploads found read
    have noReferrers : ¬referrersMark <:+: name ++ (manifestsMark ++ ref.text) := by
      intro found
      cases parseRest_referrers noUploads noTags found read
    refine ⟨noUploads, noReferrers, fun found => ?_⟩
    cases parseRest_blob noUploads noTags noReferrers found read
  · intro clear
    rw [parseRest, (cutFirst_eq_none (by decide)).mpr clear.1, if_neg noTags,
      (cutLast_eq_none (by decide)).mpr clear.2.1, (cutLast_eq_none (by decide)).mpr clear.2.2,
      cutLast_segment ref (by decide) (by decide)]
    simp [answer, some_, ref.notEmpty]

end Segment

/-- A path is parsed as it was made exactly when no other mark stands in the way. -/
theorem parsePath_iff (some_ : name ≠ []) (endpoint : Endpoint) :
    parsePath (urlPath name endpoint) =
        some (name, endpoint.kind, endpoint.ref) ↔ endpoint.Clear name := by
  rw [parsePath_urlPath]
  cases endpoint with
  | uploads id => exact parseRest_upload_iff some_ id
  | tags =>
    constructor
    · intro read found
      cases parseRest_uploads found read
    · exact parseRest_tags some_
  | referrers digest => exact parseRest_referrers_iff digest some_
  | blob digest => exact parseRest_blob_iff digest some_
  | manifest ref => exact parseRest_manifest_iff ref some_

def latest : Reference where
  text := "latest".toList
  notEmpty := by decide
  whole := by decide

theorem parsePath_latest : parsePath (urlPath "team/manifests/tags".toList (.manifest latest)) =
      some ("team/manifests/tags".toList, .manifest, "latest".toList) :=
  (parsePath_iff (by decide) (.manifest latest)).mpr (by
    refine ⟨?_, ?_, ?_⟩ <;> decide +kernel)

/-- The manifest `latest` of the repository `team/blobs/x` is taken for a blob
of `team`. -/
theorem blobs_in_name : parsePath (urlPath "team/blobs/x".toList (.manifest latest)) =
      some ("team".toList, .blob, "x/manifests/latest".toList) := by
  decide +kernel

open Cornus.Storage

/-- A manifest of more is refused. -/
def maxManifestSize : Nat := 32 <<< 20

/-- The writes of `PutManifest`, in order. -/
inductive Write where
  | blob
  | marker
  | tag
  deriving DecidableEq

/-- A write that fails, with its error `fs.ErrPermission` or another. -/
structure WriteFault where
  write : Write
  permission : Bool

variable (sha : Digester) (objects : Objects)

/-- What `PutManifest` leaves when a write fails; a push by digest has no tag to
write. -/
def putManifestUntil (repo mediaType content : String) : Write → Objects
  | .blob => objects
  | .marker => putBlob sha objects content
  | .tag => (putBlob sha objects content).insert (manifestKey repo (sha.hex content)) mediaType

/-- A request that stores a manifest. -/
structure Push where
  repo : String
  ref : String
  contentType : String
  body : Except String String

/-- `probe` is the `mediaType` field of a body that decodes. -/
def detectMediaType (probe : String → Option String) (body : String) : String :=
  match (probe body).filter (· ≠ "") with
  | some mediaType => mediaType
  | none => "application/vnd.oci.image.manifest.v1+json"

/-- The type that is stored with the manifest. -/
def Push.mediaType (probe : String → Option String) (push : Push) (body : String) : String :=
  if push.contentType = "" then detectMediaType probe body else push.contentType

/-- The reference is a digest, and not that of the body. -/
def Push.mismatched (push : Push) (body : String) : Bool :=
  isDigest push.ref && push.ref != digestOf (sha.hex body)

/-- The registry's mode, with the hash and the decoding it calls. -/
structure Server where
  readOnly : Bool
  sha : Digester
  probe : String → Option String

variable (server : Server)

/-- The push of a body that has been read: the digest is compared once
`PutManifest` has returned. -/
def Server.pushBody (objects : Objects) (push : Push)
    (body : String) (fault : Option WriteFault) : Nat × Objects :=
  let mediaType := push.mediaType server.probe body
  match fault.filter fun failed => failed.write ≠ .tag ∨ ¬isDigest push.ref with
  | some failed =>
    (if failed.permission then 503 else 500,
      putManifestUntil server.sha objects push.repo mediaType body failed.write)
  | none =>
    (if push.mismatched server.sha body then 400 else 201,
      putManifest server.sha objects push.repo push.ref mediaType body)

/-- The `PUT` case of `handleManifest`: the status and the store it leaves. -/
def Server.handleManifest (objects : Objects) (push : Push)
    (fault : Option WriteFault) : Nat × Objects :=
  if server.readOnly then (405, objects)
  else
    match push.body with
    | .error _ => (500, objects)
    | .ok body =>
      if maxManifestSize < body.utf8ByteSize then (413, objects)
      else server.pushBody objects push body fault

/-- The blob is there, and the repository lists it with that media type. -/
def Stored (repo mediaType body : String) : Prop :=
  (objects.lookup (blobKeyOf (sha.hex body))).isSome = true ∧
    objects.lookup (manifestKey repo (sha.hex body)) = some mediaType

/-- No body that is read and small enough comes with another digest, unless
all it would store is there. -/
def Server.Harmless (objects : Objects) (push : Push) : Prop :=
  server.readOnly = true ∨ ∀ body, push.body = .ok body →
    body.utf8ByteSize ≤ maxManifestSize →
    push.mismatched server.sha body = true →
      Stored server.sha objects push.repo (push.mediaType server.probe body) body

theorem blobKeyOf_ne_manifestKey (repo content : String) :
    blobKeyOf (sha.hex content) ≠ manifestKey repo (sha.hex content) := by
  rw [blobKeyOf_eq (sha.parses content), manifestKey_parts repo (plain_of_hex (sha.parses content))]
  simp

theorem putManifest_same_iff
    {repo ref mediaType content : String} (byDigest : isDigest ref = true) :
    (∀ key, (putManifest sha objects repo ref mediaType content).lookup key = objects.lookup key) ↔
      Stored sha objects repo mediaType content := by
  rw [putManifest, if_pos byDigest]
  constructor
  · intro same
    constructor
    · rw [← same, lookup_insert_ne (blobKeyOf_ne_manifestKey sha repo _), putBlob]
      split
      · assumption
      · rw [lookup_insert]
        rfl
    · rw [← same, lookup_insert]
  · intro stored key
    rw [putBlob, if_pos stored.1]
    by_cases marker : key = manifestKey repo (sha.hex content)
    · rw [marker, lookup_insert, stored.2]
    · rw [lookup_insert_ne marker]

/-- A body that has been read is answered with 400 exactly for its digest, and
is stored then. -/
theorem pushBody_rejected {server : Server} {objects : Objects} {push : Push} {body : String}
    (rejected : (server.pushBody objects push body fault).1 / 100 = 4) :
    push.mismatched server.sha body = true ∧ (server.pushBody objects push body fault).2 =
        putManifest server.sha objects push.repo push.ref
          (push.mediaType server.probe body) body := by
  rw [Server.pushBody] at rejected ⊢
  generalize fault.filter _ = failure at rejected ⊢
  cases failure with
  | some failed => cases permission : failed.permission <;> simp [permission] at rejected
  | none =>
    refine ⟨?_, rfl⟩
    by_contra matching
    simp [matching] at rejected

/-- A refused request leaves the store as it was exactly when it is harmless. -/
theorem handleManifest_unchanged_iff (server : Server) (objects : Objects)
    (push : Push) (fault : Option WriteFault)
    (rejected : (server.handleManifest objects push fault).1 / 100 = 4) :
    (∀ key, (server.handleManifest objects push fault).2.lookup key = objects.lookup key) ↔
      server.Harmless objects push := by
  rw [Server.Harmless]
  rw [Server.handleManifest] at rejected ⊢
  by_cases readOnly : server.readOnly = true
  · simp [readOnly]
  rw [if_neg readOnly] at rejected ⊢
  cases read : push.body with
  | error text =>
    simp [read] at rejected
  | ok body =>
    rw [read] at rejected
    simp only [readOnly, Except.ok.injEq, forall_eq'] at rejected ⊢
    by_cases large : maxManifestSize < body.utf8ByteSize
    · simp [large, Nat.not_le.mpr large]
    rw [if_neg large] at rejected ⊢
    obtain ⟨mismatched, stored⟩ := pushBody_rejected rejected
    have byDigest := (Bool.and_eq_true _ _ ▸ mismatched).1
    rw [stored, putManifest_same_iff _ _ byDigest]
    simp [mismatched, Nat.not_lt.mp large]

/-- Neither `one` nor `four` is JSON. -/
def plainServer : Server where
  readOnly := false
  sha := knownDigester
  probe _ := none

/-- A push of `one` under a digest that is not its own. -/
def wrongDigest : Push where
  repo := "app"
  ref := digestOf (knownDigester.hex "four")
  contentType := ""
  body := .ok "one"

/-- The store after one push. -/
def onePushed : Objects :=
  putManifest knownDigester {} "app" "v1" "application/vnd.oci.image.manifest.v1+json" "one"

theorem onePushed_unchanged : (plainServer.handleManifest onePushed wrongDigest none).1 / 100 = 4 ∧
      ∀ key, (plainServer.handleManifest onePushed wrongDigest none).2.lookup
        key = onePushed.lookup key :=
  ⟨by decide +kernel, (handleManifest_unchanged_iff plainServer onePushed
    wrongDigest none (by decide +kernel)).mpr (.inr (by
      intro body read _ _
      cases read
      exact ⟨by decide +kernel, by decide +kernel⟩))⟩

/-- The manifest is stored before its digest is compared. -/
theorem wrongDigest_stored : (plainServer.handleManifest {} wrongDigest none).1 = 400 ∧
      getManifest {} "app" (digestOf (knownDigester.hex "one")) = .error .notFound ∧
      getManifest (plainServer.handleManifest {} wrongDigest none).2 "app"
          (digestOf (knownDigester.hex "one")) =
        .ok ⟨"one", digestOf (knownDigester.hex "one"),
          "application/vnd.oci.image.manifest.v1+json"⟩ := by
  decide +kernel

end Cornus.Registry
