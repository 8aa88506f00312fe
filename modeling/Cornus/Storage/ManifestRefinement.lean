import Cornus.Storage.ManifestMap

/-!
# The manifest store refines the map

The keys of blobs, markers and tags never coincide, so each call changes the few
places it writes.  The map is read off the store place by place; a harmless call
keeps that reading.
-/

namespace Cornus.Storage

open Lib List AList Place

def target (objects : Objects) (repo tag : String) : Option Manifest :=
  (objects.lookup (tagKey repo tag)).bind fun digest =>
    match parseDigest digest with
    | .error _ => none
    | .ok hex =>
      (objects.lookup (manifestKey repo hex)).bind fun mediaType =>
        (objects.lookup (blobKeyOf hex)).map fun content =>
          ⟨content, digest, mediaType⟩

def Place.Known (map : ManifestMap) : Place → Prop
  | .blob _ => True
  | .marker repo hex => (repo, hex) ∈ map.marked
  | .tag repo name => (repo, name) ∈ map.tagged

structure Library.Represents (sha : Digester) (library : Library) : Prop where
  shaped : ∀ key ∈ library.objects, ∃ place : Place,
    place.Legal ∧ place.Known library.map ∧ key = place.key
  marked : ∀ repo hex, (repo, hex) ∈ library.map.marked → (Place.marker repo hex).Legal ∧
      (library.objects.lookup (manifestKey repo hex)).isSome = true
  tagged : ∀ repo tag, (repo, tag) ∈ library.map.tagged → (Place.tag repo tag).Legal ∧ ∃ content,
      library.objects.lookup (tagKey repo tag) = some (digestOf (sha.hex content)) ∧
      library.objects.lookup (blobKeyOf (sha.hex content)) = some content
  manifest : ∀ repo tag, (Place.tag repo tag).Legal →
    library.map.manifest repo tag = target library.objects repo tag
  distinct : library.map.tagged.Nodup ∧ library.map.marked.Nodup

section Lookups

variable {sha : Digester} {objects : Objects} {place other : Place}
  {repo ref mediaType content : String}

theorem lookup_insert_place (legal : place.Legal) (otherLegal : other.Legal) (value : String) :
    (objects.insert place.key value).lookup other.key =
      if other = place then some value else objects.lookup other.key := by
  by_cases same : other = place
  · rw [if_pos same, same, lookup_insert]
  rw [if_neg same, lookup_insert_ne]
  intro equal
  exact same (key_injective otherLegal legal equal)

theorem blob_legal (content : String) : (blob (sha.hex content)).Legal := sha.parses content

theorem mem_putManifest {key : Key}
    (mem : key ∈ putManifest sha objects repo ref mediaType content) :
    (isDigest ref = false ∧ key = tagKey repo ref) ∨ key = manifestKey repo (sha.hex content) ∨
      key = blobKeyOf (sha.hex content) ∨ key ∈ objects := by
  have inBlob : key ∈ putBlob sha objects content →
      key = blobKeyOf (sha.hex content) ∨ key ∈ objects := by
    intro held
    rw [putBlob] at held
    split at held
    · exact .inr held
    · exact (mem_insert _).mp held
  have inMarker : key ∈ (putBlob sha objects content).insert
      (manifestKey repo (sha.hex content)) mediaType → key = manifestKey repo (sha.hex content) ∨
          key = blobKeyOf (sha.hex content) ∨ key ∈ objects := by
    intro held
    rcases (mem_insert _).mp held with here | other
    · exact .inl here
    · exact .inr (inBlob other)
  rw [putManifest] at mem
  cases digest : isDigest ref with
  | true =>
    simp only [digest, if_true] at mem
    exact .inr (inMarker mem)
  | false =>
    simp only [digest, Bool.false_eq_true, if_false] at mem
    rcases (mem_insert _).mp mem with here | other
    · exact .inl ⟨rfl, here⟩
    · exact .inr (inMarker other)

theorem lookup_erase_place (objects : Objects) (legal : place.Legal) (otherLegal : other.Legal) :
    (objects.erase place.key).lookup other.key =
      if other = place then none else objects.lookup other.key := by
  by_cases same : other = place
  · rw [if_pos same, same, lookup_erase]
  rw [if_neg same, lookup_erase_ne]
  intro equal
  exact same (key_injective otherLegal legal equal)

section Erase

variable {repo hex : String} (legal : (Place.marker repo hex).Legal)
include legal

theorem lookup_erase_marker (otherLegal : (marker otherRepo otherHex).Legal) :
    (objects.erase (manifestKey repo hex)).lookup (manifestKey otherRepo otherHex) =
      if otherRepo = repo ∧ otherHex = hex then none
      else objects.lookup (manifestKey otherRepo otherHex) := by
  have after := lookup_erase_place objects legal otherLegal
  simp only [key, marker.injEq] at after
  exact after

theorem lookup_erase_tag {tag : String} (tagLegal : (Place.tag otherRepo tag).Legal) :
    (objects.erase (manifestKey repo hex)).lookup (tagKey otherRepo tag) =
      objects.lookup (tagKey otherRepo tag) := by
  have after := lookup_erase_place objects legal tagLegal
  simp only [Place.key, reduceCtorEq, if_false] at after
  exact after

theorem lookup_erase_blob (content : String) : (objects.erase (manifestKey repo hex)).lookup
        (blobKeyOf (sha.hex content)) = objects.lookup (blobKeyOf (sha.hex content)) := by
  have blobLegal : (blob (sha.hex content)).Legal := blob_legal content
  have after := lookup_erase_place objects legal blobLegal
  simp only [key, reduceCtorEq, if_false] at after
  exact after

end Erase

end Lookups

namespace Library

variable {sha : Digester} {library : Library}

theorem represents_empty : Represents sha {} where
  shaped _ member := nomatch member
  marked _ _ member := nomatch member
  tagged _ _ member := nomatch member
  manifest _ _ _ := rfl
  distinct := ⟨nodup_nil, nodup_nil⟩

variable {repo tag digest : String}

theorem Represents.tag_of_lookup (represents : library.Represents sha)
    (legal : (Place.tag repo tag).Legal)
    (found : library.objects.lookup (tagKey repo tag) = some digest) :
    ∃ content, digest = digestOf (sha.hex content) ∧
      library.objects.lookup (blobKeyOf (sha.hex content)) = some content := by
  have stored : (Place.tag repo tag).key ∈ library.objects :=
    lookup_isSome.mp (by rw [Place.key, found]; rfl)
  obtain ⟨place, placeLegal, known, same⟩ := represents.shaped _ stored
  cases Place.key_injective legal placeLegal same
  obtain ⟨_, content, pointed, blob⟩ := represents.tagged _ _ known
  rw [found] at pointed
  exact ⟨content, Option.some.inj pointed, blob⟩

variable {objects : Objects} {content ref : String} {call : Call}

theorem target_of_tag (found : objects.lookup (tagKey repo tag) = some (digestOf (sha.hex content)))
    (blob : objects.lookup (blobKeyOf (sha.hex content)) = some content) :
    target objects repo tag = (objects.lookup (manifestKey repo (sha.hex content))).map
        fun mediaType => ⟨content, digestOf (sha.hex content), mediaType⟩ := by
  simp only [target, found, Option.bind_some, sha.parses, blob]
  cases objects.lookup (manifestKey repo (sha.hex content)) <;> rfl

theorem target_of_noTag (found : objects.lookup (tagKey repo tag) = none) :
    target objects repo tag = none := by
  rw [target, found]
  rfl

theorem Represents.get (represents : library.Represents sha) (legal : (Place.tag repo tag).Legal) :
    getManifest library.objects repo tag = match library.map.manifest repo tag with
      | none => .error .notFound
      | some manifest => .ok manifest := by
  have notDigest : isDigest tag = false := not_digest_of_tag legal.2.1
  rw [represents.manifest repo tag legal, getManifest, resolveRef, notDigest]
  simp only [Bool.false_eq_true, if_false]
  cases found : library.objects.lookup (tagKey repo tag) with
  | none => rw [target_of_noTag found]
  | some digest =>
    obtain ⟨content, rfl, blob⟩ := represents.tag_of_lookup legal found
    simp only [trimSpace_digestOf (sha.parses content), sha.parses, blob, target_of_tag found blob]
    cases library.objects.lookup (manifestKey repo (sha.hex content)) <;> rfl

structure PutAllowed (sha : Digester) (objects : Objects)
    (repo ref mediaType content : String) : Prop where
  repoLegal : legalRepo repo = true
  refLegal : isDigest ref = true ∨ (isDigest ref = false ∧ (Place.tag repo ref).Legal)
  fresh : (objects.lookup (blobKeyOf (sha.hex content))).all (· == content) = true
  shared : otherTag objects repo ref (sha.hex content) = true →
    objects.lookup (manifestKey repo (sha.hex content)) = some mediaType

theorem PutAllowed.tagLegal (allowed : PutAllowed sha objects repo ref mediaType content)
    (notDigest : isDigest ref = false) : (Place.tag repo ref).Legal :=
  (allowed.refLegal.resolve_left (by simp [notDigest])).2

theorem PutAllowed.of_harmless (legal : (Call.put repo ref mediaType content).legal = true)
    (safe : harmless sha objects (.put repo ref mediaType content) = true) :
    PutAllowed sha objects repo ref mediaType content := by
  simp only [Call.legal, Bool.and_eq_true, Bool.or_eq_true] at legal
  simp only [harmless, Bool.and_eq_true, Bool.or_eq_true, Bool.not_eq_true', beq_iff_eq] at safe
  obtain ⟨⟨dots, fresh⟩, shared⟩ := safe
  refine ⟨legal.1, ?_, fresh, ?_⟩
  · cases digest : isDigest ref with
    | true => exact .inl rfl
    | false =>
      rw [digest] at legal dots
      have named : legalTag ref = true := by simpa using legal.2
      have apart : dotless ref = true := by simpa using dots
      exact .inr ⟨rfl, legal.1, named, apart⟩
  · intro other
    rcases shared with none_ | same
    · rw [none_] at other
      cases other
    · exact same

theorem tagsDir_eq (legal : legalRepo repo = true) :
    tagsDir repo = "repos" :: splitOnChar '/' repo ++ ["tags"] := by
  rw [tagsDir, pathJoin_repo, repoParts_of_legal legal]
  simp [plain_tags]

theorem otherTag_of_lookup (legal : (Place.tag repo tag).Legal)
    (apart : isDigest ref = true ∨ tagKey repo tag ≠ tagKey repo ref)
    (found : objects.lookup (tagKey repo tag) = some (digestOf hex)) :
    otherTag objects repo ref hex = true := by
  rw [otherTag, any_eq_true]
  refine ⟨⟨tagKey repo tag, digestOf hex⟩, mem_lookup_iff.mp found, ?_⟩
  simp only [Bool.and_eq_true, Bool.or_eq_true, beq_iff_eq, bne_iff_ne, ne_eq, and_true]
  refine ⟨?_, apart⟩
  rw [tagKey_eq legal.1 legal.2.1 legal.2.2, tagsDir_eq legal.1,
    dropLast_append_of_ne_nil (cons_ne_nil _ _)]
  rfl

section Put

variable {repo ref mediaType content : String}

section

variable {objects : Objects} {first otherRepo tag : String}
  (allowed : PutAllowed sha objects repo ref mediaType content)
include allowed

theorem PutAllowed.lookup {place : Place} (legal : place.Legal) :
    (putManifest sha objects repo ref mediaType content).lookup place.key =
      if isDigest ref = false ∧ place = .tag repo ref then
        some (digestOf (sha.hex content))
      else if place = .marker repo (sha.hex content) then some mediaType
      else if place = .blob (sha.hex content) then some content
      else objects.lookup place.key := by
  have marker : (marker repo (sha.hex content)).Legal := ⟨allowed.repoLegal, sha.parses content⟩
  have blob : (putBlob sha objects content).lookup place.key =
      if place = .blob (sha.hex content) then some content
      else objects.lookup place.key := by
    rw [putBlob]
    cases found : objects.lookup (blobKeyOf (sha.hex content)) with
    | none => exact lookup_insert_place (blob_legal content) legal content
    | some stored =>
      have same : stored = content := by simpa [found] using allowed.fresh
      simp only [Option.isSome_some, if_true]
      split
      · rename_i here
        rw [here, ← same]
        exact same ▸ found
      · rfl
  have marked : ((putBlob sha objects content).insert
      (manifestKey repo (sha.hex content)) mediaType).lookup place.key =
        if place = .marker repo (sha.hex content) then some mediaType
        else if place = .blob (sha.hex content) then some content
        else objects.lookup place.key := by
    rw [← blob]
    exact lookup_insert_place marker legal mediaType
  rw [putManifest]
  rcases allowed.refLegal with digest | ⟨notDigest, tag⟩
  · simp only [digest, if_true, Bool.true_eq_false, false_and, if_false]
    exact marked
  · simp only [notDigest, Bool.false_eq_true, if_false, true_and]
    rw [← marked]
    exact lookup_insert_place tag legal _

theorem PutAllowed.lookup_blob
    (stored : first = content ∨ objects.lookup (blobKeyOf (sha.hex first)) = some first) :
    (putManifest sha objects repo ref mediaType content).lookup
      (blobKeyOf (sha.hex first)) = some first := by
  have legal : (blob (sha.hex first)).Legal := blob_legal first
  have after := allowed.lookup legal
  simp only [reduceCtorEq, and_false, if_false, key, blob.injEq] at after
  rw [after]
  rcases stored with rfl | blob
  · rw [if_pos rfl]
  split
  · rename_i same
    have fresh := allowed.fresh
    rw [← same, blob] at fresh
    have equal : first = content := by simpa using fresh
    rw [equal]
  · exact blob

theorem PutAllowed.lookup_marker {hex : String} (legal : (marker otherRepo hex).Legal) :
    (putManifest sha objects repo ref mediaType content).lookup (manifestKey otherRepo hex) =
      if otherRepo = repo ∧ hex = sha.hex content then some mediaType
      else objects.lookup (manifestKey otherRepo hex) := by
  have after := allowed.lookup legal
  simp only [reduceCtorEq, and_false, if_false, key, marker.injEq] at after
  exact after

theorem PutAllowed.lookup_tag (legal : (Place.tag otherRepo tag).Legal) :
    (putManifest sha objects repo ref mediaType content).lookup (tagKey otherRepo tag) =
      if isDigest ref = false ∧ otherRepo = repo ∧ tag = ref then
        some (digestOf (sha.hex content))
      else objects.lookup (tagKey otherRepo tag) := by
  have after := allowed.lookup legal
  simp only [reduceCtorEq, if_false, Place.key, Place.tag.injEq] at after
  exact after

theorem PutAllowed.marker_kept (legal : (Place.tag otherRepo tag).Legal)
    (apart : ¬(isDigest ref = false ∧ otherRepo = repo ∧ tag = ref))
    (found : objects.lookup (tagKey otherRepo tag) = some (digestOf (sha.hex first))) :
    (putManifest sha objects repo ref mediaType content).lookup
        (manifestKey otherRepo (sha.hex first)) =
      objects.lookup (manifestKey otherRepo (sha.hex first)) := by
  rw [allowed.lookup_marker ⟨legal.1, sha.parses first⟩]
  split
  · rename_i same
    obtain ⟨sameRepo, sameHex⟩ := same
    subst sameRepo
    rw [sameHex] at found ⊢
    symm
    apply allowed.shared
    apply otherTag_of_lookup legal _ found
    cases digest : isDigest ref with
    | true => exact .inl rfl
    | false =>
      refine .inr fun sameKey => ?_
      cases key_injective legal (allowed.tagLegal digest) sameKey
      exact apart ⟨digest, rfl, rfl⟩
  · rfl

end

theorem Represents.manifest_put (represents : library.Represents sha)
    (allowed : PutAllowed sha library.objects repo ref mediaType content)
    (legal : (Place.tag otherRepo tag).Legal) :
    (library.map.put sha repo ref mediaType content).manifest otherRepo tag =
      target (putManifest sha library.objects repo ref mediaType content) otherRepo tag := by
  have pointed := allowed.lookup_tag legal
  by_cases own : isDigest ref = false ∧ otherRepo = repo ∧ tag = ref
  · rw [if_pos own] at pointed
    obtain ⟨notDigest, sameRepo, sameTag⟩ := own
    subst sameRepo sameTag
    rw [target_of_tag pointed (allowed.lookup_blob (.inl rfl)),
      allowed.lookup_marker ⟨allowed.repoLegal, sha.parses content⟩]
    simp [ManifestMap.put, notDigest]
  · rw [if_neg own] at pointed
    have kept : (library.map.put sha repo ref mediaType content).manifest
        otherRepo tag = library.map.manifest otherRepo tag := by
      rw [ManifestMap.put]
      cases digest : isDigest ref with
      | true => rfl
      | false =>
        simp only [Bool.false_eq_true, if_false]
        rw [if_neg fun same => own ⟨digest, same⟩]
    rw [kept, represents.manifest otherRepo tag legal]
    cases found : library.objects.lookup (tagKey otherRepo tag) with
    | none =>
      rw [target_of_noTag found, target_of_noTag (pointed.trans found)]
    | some digest =>
      obtain ⟨first, rfl, blob⟩ := represents.tag_of_lookup legal found
      rw [target_of_tag found blob, target_of_tag (pointed.trans found)
        (allowed.lookup_blob (.inr blob)), allowed.marker_kept legal own found]

theorem Represents.put (represents : library.Represents sha)
    (allowed : PutAllowed sha library.objects repo ref mediaType content) :
    Represents sha ⟨putManifest sha library.objects repo ref mediaType content,
        library.map.put sha repo ref mediaType content⟩ := by
  have markedPut : (library.map.put sha repo ref mediaType content).marked =
      library.map.marked.insert (repo, sha.hex content) := by
    rw [ManifestMap.put]
    split <;> rfl
  have taggedPut : (library.map.put sha repo ref mediaType content).tagged =
      if isDigest ref = true then library.map.tagged
      else library.map.tagged.insert (repo, ref) := by
    rw [ManifestMap.put]
    split <;> rfl
  have markerLegal : (marker repo (sha.hex content)).Legal :=
    ⟨allowed.repoLegal, sha.parses content⟩
  refine ⟨?_, ?_, ?_, fun otherRepo tag legal =>
    represents.manifest_put allowed legal, ?_⟩
  · intro key stored
    rcases mem_putManifest stored with
      ⟨notDigest, here⟩ | here | here | old
    · refine ⟨.tag repo ref, allowed.tagLegal notDigest, ?_, here⟩
      rw [Place.Known, taggedPut, notDigest]
      simp
    · refine ⟨.marker repo (sha.hex content), markerLegal, ?_, here⟩
      rw [Place.Known, markedPut]
      exact mem_insert_self
    · exact ⟨.blob (sha.hex content), blob_legal content, trivial, here⟩
    · obtain ⟨place, legal, known, same⟩ := represents.shaped key old
      refine ⟨place, legal, ?_, same⟩
      cases place with
      | blob hex => trivial
      | marker otherRepo hex =>
        rw [Place.Known, markedPut]
        exact mem_insert_of_mem known
      | tag otherRepo tag =>
        rw [Place.Known, taggedPut]
        split
        · exact known
        · exact mem_insert_of_mem known
  · intro otherRepo hex mem
    rw [markedPut, mem_insert_iff] at mem
    rcases mem with new | old
    · cases new
      refine ⟨markerLegal, ?_⟩
      rw [allowed.lookup_marker markerLegal, if_pos ⟨rfl, rfl⟩]
      rfl
    · obtain ⟨legal, held⟩ := represents.marked otherRepo hex old
      refine ⟨legal, ?_⟩
      rw [allowed.lookup_marker legal]
      split
      · rfl
      · exact held
  · intro otherRepo tag mem
    by_cases own : isDigest ref = false ∧ otherRepo = repo ∧ tag = ref
    · obtain ⟨notDigest, sameRepo, sameTag⟩ := own
      subst sameRepo sameTag
      have refLegal := allowed.tagLegal notDigest
      refine ⟨refLegal, content, ?_, allowed.lookup_blob (.inl rfl)⟩
      rw [allowed.lookup_tag refLegal, if_pos ⟨notDigest, rfl, rfl⟩]
    · have old : (otherRepo, tag) ∈ library.map.tagged := by
        rw [taggedPut] at mem
        split at mem
        · exact mem
        rename_i notDigest
        rcases mem_insert_iff.mp mem with new | old
        · cases new
          exact absurd ⟨Bool.eq_false_of_not_eq_true notDigest, rfl, rfl⟩ own
        · exact old
      obtain ⟨legal, first, pointed, blob⟩ := represents.tagged otherRepo tag old
      refine ⟨legal, first, ?_, allowed.lookup_blob (.inr blob)⟩
      rw [allowed.lookup_tag legal, if_neg own, pointed]
  · rw [markedPut, taggedPut]
    refine ⟨?_, represents.distinct.2.insert⟩
    split
    · exact represents.distinct.1
    · exact represents.distinct.1.insert

end Put

section Delete

variable {repo hex : String}

theorem storeNext_delete (parsed : parseDigest digest = .ok hex) :
    storeNext sha objects (.delete repo digest) = objects.erase (manifestKey repo hex) := by
  simp only [storeNext, deleteManifest, parsed]
  cases found : objects.lookup (manifestKey repo hex) with
  | some mediaType => rfl
  | none =>
    simp only [Option.isSome_none, Bool.false_eq_true, if_false]
    apply AList.ext
    exact (kerase_of_notMem_keys (lookup_eq_none.mp found)).symm

theorem Represents.manifest_delete (represents : library.Represents sha)
    (markerLegal : (Place.marker repo hex).Legal)
    {tag : String} (legal : (Place.tag otherRepo tag).Legal) :
    (library.map.delete repo hex).manifest otherRepo tag =
      target (library.objects.erase (manifestKey repo hex)) otherRepo tag := by
  have pointed : (library.objects.erase (manifestKey repo hex)).lookup
      (tagKey otherRepo tag) = library.objects.lookup (tagKey otherRepo tag) :=
    lookup_erase_tag markerLegal legal
  simp only [ManifestMap.delete, represents.manifest otherRepo tag legal]
  cases found : library.objects.lookup (tagKey otherRepo tag) with
  | none =>
    rw [target_of_noTag found, target_of_noTag (pointed.trans found)]
    rfl
  | some digest =>
    obtain ⟨content, rfl, blob⟩ := represents.tag_of_lookup legal found
    rw [target_of_tag found blob, target_of_tag (pointed.trans found)
      ((lookup_erase_blob markerLegal content).trans blob),
      lookup_erase_marker markerLegal ⟨legal.1, sha.parses content⟩]
    by_cases same : otherRepo = repo ∧ sha.hex content = hex
    · rw [if_pos same]
      obtain ⟨sameRepo, sameHex⟩ := same
      subst sameRepo sameHex
      cases library.objects.lookup (manifestKey otherRepo (sha.hex content)) <;> simp
    · rw [if_neg same]
      cases library.objects.lookup (manifestKey otherRepo (sha.hex content)) with
      | none => rfl
      | some mediaType =>
        have keeps : otherRepo ≠ repo ∨ digestOf (sha.hex content) ≠ digestOf hex := by
          rw [← not_and_or]
          rintro ⟨sameRepo, equal⟩
          exact same ⟨sameRepo, digestOf_injective equal⟩
        simpa using keeps

theorem Represents.delete (represents : library.Represents sha) (legal : (marker repo hex).Legal) :
    Represents sha ⟨library.objects.erase (manifestKey repo hex), library.map.delete repo hex⟩ := by
  refine ⟨?_, ?_, ?_, fun otherRepo tag tagLegal =>
    represents.manifest_delete legal tagLegal, ?_⟩
  · intro key stored
    obtain ⟨other, old⟩ := mem_erase.mp stored
    obtain ⟨place, placeLegal, known, rfl⟩ := represents.shaped key old
    refine ⟨place, placeLegal, ?_, rfl⟩
    cases place with
    | blob otherHex => trivial
    | tag otherRepo tag => exact known
    | marker otherRepo otherHex =>
      apply mem_filter.mpr
      refine ⟨known, bne_iff_ne.mpr ?_⟩
      rintro same
      cases same
      exact other rfl
  · intro otherRepo otherHex mem
    obtain ⟨old, apart⟩ := mem_filter.mp mem
    obtain ⟨otherLegal, held⟩ := represents.marked otherRepo otherHex old
    refine ⟨otherLegal, ?_⟩
    rw [lookup_erase_marker legal otherLegal, if_neg]
    · exact held
    · rintro ⟨sameRepo, sameHex⟩
      rw [sameRepo, sameHex] at apart
      exact absurd rfl (bne_iff_ne.mp apart)
  · intro otherRepo tag mem
    obtain ⟨tagLegal, content, pointed, blob⟩ := represents.tagged otherRepo tag mem
    exact ⟨tagLegal, content, (lookup_erase_tag legal tagLegal).trans pointed,
      (lookup_erase_blob legal content).trans blob⟩
  · exact ⟨represents.distinct.1, represents.distinct.2.filter _⟩

end Delete

/-- A harmless call leaves store and map in step. -/
theorem Represents.step (represents : library.Represents sha) (legal : call.legal = true)
    (safe : harmless sha library.objects call = true) :
    Represents sha ⟨storeNext sha library.objects call, mapNext sha library.map call⟩ := by
  cases call with
  | put repo ref mediaType content =>
    exact represents.put (.of_harmless legal safe)
  | delete repo digest =>
    cases parsed : parseDigest digest with
    | error err =>
      simp only [storeNext, deleteManifest, mapNext, parsed]
      exact represents
    | ok hex =>
      obtain ⟨same, _⟩ := parseDigest_ok parsed
      rw [storeNext_delete parsed]
      simp only [mapNext, parsed]
      exact represents.delete ⟨legal, same ▸ parsed⟩
  | get repo tag | tags repo | repos => exact represents

section Answers

variable (represents : library.Represents sha)
include represents

variable {repo : String}

theorem Represents.marked_iff (legal : (marker repo hex).Legal) : (repo, hex) ∈ library.map.marked ↔
      (library.objects.lookup (manifestKey repo hex)).isSome = true := by
  constructor
  · intro mem
    exact (represents.marked repo hex mem).2
  · intro held
    obtain ⟨place, placeLegal, known, same⟩ := represents.shaped _ (lookup_isSome.mp held)
    cases key_injective legal placeLegal same
    exact known

theorem Represents.deleted (legal : legalRepo repo = true) :
    storeAnswer sha library.objects (.delete repo digest) =
      mapAnswer sha library.map (.delete repo digest) := by
  simp only [storeAnswer, mapAnswer, deleteManifest]
  cases parsed : parseDigest digest with
  | error err => rfl
  | ok hex =>
    obtain ⟨same, _⟩ := parseDigest_ok parsed
    rw [same] at parsed
    have markerLegal : (marker repo hex).Legal := ⟨legal, parsed⟩
    have iff := represents.marked_iff markerLegal
    by_cases held : (library.objects.lookup (manifestKey repo hex)).isSome = true
    · simp only [if_pos held, if_pos (iff.mpr held)]
      rfl
    · simp only [if_neg held, if_neg fun mem => held (iff.mp mem)]
      rfl

theorem Represents.tags (legal : legalRepo repo = true) :
    Storage.tags library.objects repo = library.map.tags repo := by
  apply sortStrings_congr nodup_files
  · apply List.Nodup.map_on _ (represents.distinct.1.filter _)
    rintro ⟨first, tag⟩ inFirst ⟨second, other⟩ inSecond same
    have firstRepo := (mem_filter.mp inFirst).2
    have secondRepo := (mem_filter.mp inSecond).2
    simp only [beq_iff_eq] at firstRepo secondRepo same
    rw [firstRepo, secondRepo, same]
  · intro tag
    rw [mem_files, tagsDir_eq legal]
    simp only [mem_map, mem_filter, beq_iff_eq]
    constructor
    · intro stored
      obtain ⟨place, placeLegal, known, same⟩ := represents.shaped _ stored
      rw [key_eq_segments placeLegal, append_assoc] at same
      cases place with
      | blob hex => simp [segments] at same
      | marker other hex =>
        exact absurd (repo_segments_inj same).2.1 (by decide)
      | tag other name =>
        obtain ⟨rfl, _, rfl⟩ := repo_segments_inj same
        exact ⟨_, ⟨known, rfl⟩, rfl⟩
    · rintro ⟨⟨other, name⟩, ⟨mem, rfl⟩, rfl⟩
      obtain ⟨tagLegal, content, pointed, _⟩ := represents.tagged other name mem
      have stored : tagKey other name ∈ library.objects :=
        lookup_isSome.mp (Option.isSome_of_eq_some pointed)
      rw [tagKey_eq tagLegal.1 tagLegal.2.1 tagLegal.2.2] at stored
      rw [append_assoc]
      exact stored

theorem Represents.mem_markerDirs_iff :
    dir ∈ markerDirs library.objects (depth library.objects) ["repos"] ↔
      ∃ repo hex, (repo, hex) ∈ library.map.marked ∧
        dir = "repos" :: splitOnChar '/' repo ++ ["manifests"] := by
  rw [mem_markerDirs fun key stored =>
    Nat.le_trans (length_le_depth stored) (Nat.le_add_left _ _)]
  constructor
  · rintro ⟨⟨rest, rfl⟩, last, name, stored⟩
    obtain ⟨place, placeLegal, known, same⟩ := represents.shaped _ stored
    rw [key_eq_segments placeLegal] at same
    cases place with
    | blob hex => simp [segments] at same
    | marker repo hex =>
      refine ⟨repo, hex, known, ?_⟩
      have front := congrArg List.dropLast same
      rw [dropLast_concat, segments, dropLast_append_of_ne_nil (cons_ne_nil _ _)] at front
      exact front
    | tag repo other =>
      have front := congrArg List.dropLast same
      rw [dropLast_concat, segments, dropLast_append_of_ne_nil (cons_ne_nil _ _)] at front
      rw [front, dropLast_cons_cons, dropLast_singleton, getLast?_concat] at last
      exact absurd (Option.some.inj last) (by decide)
  · rintro ⟨repo, hex, mem, rfl⟩
    obtain ⟨legal, held⟩ := represents.marked repo hex mem
    have stored : manifestKey repo hex ∈ library.objects := lookup_isSome.mp held
    rw [manifestKey_eq legal.1 (plain_of_hex legal.2)] at stored
    refine ⟨⟨splitOnChar '/' repo ++ ["manifests"], rfl⟩, getLast?_concat, hex, ?_⟩
    rw [append_assoc]
    exact stored

end Answers

theorem repoName_eq (repo : String) :
    repoName ("repos" :: splitOnChar '/' repo ++ ["manifests"]) = repo := by
  have long : ¬(splitOnChar '/' repo ++ ["manifests"]).length ≤ 1 := by
    have some_ := length_pos_of_ne_nil (splitOnChar_ne_nil '/' repo)
    simp only [length_append, length_singleton]
    omega
  rw [repoName]
  simp only [cons_append, drop_succ_cons, drop_zero, if_neg long, dropLast_concat]
  exact intercalate_splitOnChar '/' repo

theorem Represents.repos (represents : library.Represents sha) :
    Storage.repos library.objects = library.map.repos := by
  rw [Storage.repos, ManifestMap.repos, walkRepos_eq_map]
  apply sortStrings_congr _ (nodup_dedup _)
  · intro repo
    rw [mem_map, mem_dedup, mem_map]
    constructor
    · rintro ⟨dir, mem, rfl⟩
      obtain ⟨repo, hex, marked, rfl⟩ := represents.mem_markerDirs_iff.mp mem
      exact ⟨_, marked, (repoName_eq repo).symm⟩
    · rintro ⟨⟨name, hex⟩, marked, rfl⟩
      exact ⟨_, represents.mem_markerDirs_iff.mpr ⟨name, hex, marked, rfl⟩, repoName_eq name⟩
  · apply List.Nodup.map_on _ (nodup_markerDirs _ _)
    intro dir inDir other inOther same
    obtain ⟨repo, hex, _, rfl⟩ := represents.mem_markerDirs_iff.mp inDir
    obtain ⟨second, _, _, rfl⟩ := represents.mem_markerDirs_iff.mp inOther
    rw [repoName_eq, repoName_eq] at same
    rw [same]

theorem Represents.answer (represents : library.Represents sha) (legal : call.legal = true)
    (safe : harmless sha library.objects call = true) :
    storeAnswer sha library.objects call = mapAnswer sha library.map call := by
  cases call with
  | put repo ref mediaType content => rfl
  | delete repo digest => exact represents.deleted legal
  | get repo tag =>
    rw [Call.legal, Bool.and_eq_true] at legal
    exact congrArg Answer.manifest (represents.get ⟨legal.1, legal.2, safe⟩)
  | tags repo => rw [storeAnswer, mapAnswer, represents.tags legal]
  | repos => rw [storeAnswer, mapAnswer, represents.repos]

end Library

theorem mapNext_untouched {map : ManifestMap}
    {tag : String} (apart : call.touches repo tag = false) :
    (mapNext sha map call).manifest repo tag = map.manifest repo tag := by
  cases call with
  | put other ref mediaType content =>
    simp only [Call.touches, Bool.and_eq_false_iff, beq_eq_false_iff_ne] at apart
    simp only [mapNext, ManifestMap.put]
    split
    · rfl
    simp only
    rw [if_neg]
    rintro ⟨rfl, rfl⟩
    rcases apart with ne | ne <;> exact ne rfl
  | delete other digest =>
    simp only [Call.touches, beq_eq_false_iff_ne] at apart
    simp only [mapNext]
    cases parseDigest digest with
    | error err => rfl
    | ok hex =>
      simp only [ManifestMap.delete]
      cases map.manifest repo tag with
      | none => rfl
      | some manifest => simp [Ne.symm apart]
  | get other name => rfl
  | tags other => rfl
  | repos => rfl

/-- In every run of harmless calls with legal names the store is the map. -/
theorem runsRefine_of_harmless (sha : Digester) : RunsRefine sha fun library call =>
      call.legal = true ∧ harmless sha library.objects call = true := by
  intro calls call library along reached
  obtain ⟨before, last⟩ := along.append
  obtain ⟨⟨legal, safe⟩, _⟩ := last library reached
  have represents : library.Represents sha := by
    apply run_invariant _ Library.represents_empty before reached
    intro state event next kept permitted taken
    cases taken
    exact kept.step permitted.1 permitted.2
  refine ⟨represents.answer legal safe, ?_⟩
  intro repo tag apart tagLegal permitted
  rw [Call.legal, Bool.and_eq_true] at tagLegal
  have named : (Place.tag repo tag).Legal := ⟨tagLegal.1, tagLegal.2, permitted.2⟩
  rw [(represents.step legal safe).get named, represents.get named]
  simp only [mapNext_untouched apart]

/-- SHA-256 of the two texts that are stored below, and of the empty text for any
other. -/
def knownHex (content : String) : String :=
  if content = "one" then "7692c3ad3540bb803c020b3aee66cd8887123234ea0c6e7143c0add73ff431ed"
  else if content = "four" then
    "04efaf080f5a3e74e1c29d1ca6a48569382cbbcd324e8d59d2b83ef21c039f00"
  else "e3b0c44298fc1c149afbf4c8996fb92427ae41e4649b934ca495991b7852b855"

theorem parses_knownHex (content : String) :
    parseDigest (digestOf (knownHex content)) = .ok (knownHex content) := by
  unfold knownHex
  split
  · decide +kernel
  · split <;> decide +kernel

def knownDigester : Digester :=
  ⟨knownHex, parses_knownHex⟩

/-- A tag is moved, its first manifest deleted, and a second repository put. -/
def movedTag : List Call :=
  [.put "app" "v1" "index" "one", .put "app" "v1" "image" "four",
    .delete "app" (digestOf (knownDigester.hex "one")), .put "app/tags" "v1" "image" "four"]

theorem movedTag_refines : ∃ library, run (libraryStep knownDigester) {} movedTag = some library ∧
      storeAnswer knownDigester library.objects .repos =
        mapAnswer knownDigester library.map .repos ∧ library.map.repos = ["app", "app/tags"] := by
  have permitted : Along (libraryStep knownDigester) (fun library call => call.legal = true ∧
        harmless knownDigester library.objects call = true) {} (movedTag ++ [.repos]) := by
    decide +kernel
  exact ⟨_, rfl, (runsRefine_of_harmless knownDigester movedTag .repos _
    permitted rfl).1, by decide +kernel⟩

/-- `sanitize` rewrites two dots, so the tag is listed under another name, with
whatever digest function. -/
theorem rewrittenTag_not_runsRefine :
    ¬∃ sha : Digester, RunsRefine sha fun _ call => call.legal = true := by
  rintro ⟨sha, refines⟩
  have permitted : Along (libraryStep sha) (fun _ call => call.legal = true)
      {} [.put "app" "v1..2" "image" "one", .tags "app"] := by
    apply Along.of_events
    decide +kernel
  have answers := (refines [.put "app" "v1..2" "image" "one"] (.tags "app") _ permitted rfl).1
  have notDigest : isDigest "v1..2" = false := by decide +kernel
  have key : tagKey "app" "v1..2" = tagsDir "app" ++ ["v1_2"] := by
    decide +kernel
  have listed : "v1_2" ∈ tags (putManifest sha ∅ "app" "v1..2" "image" "one") "app" := by
    rw [tags, mem_sortStrings, mem_files, ← key, putManifest, notDigest]
    exact (mem_insert _).mpr (.inl rfl)
  have wanted : (ManifestMap.put sha {} "app" "v1..2" "image" "one").tags "app" = ["v1..2"] := by
    rw [ManifestMap.put, notDigest]
    rfl
  simp only [storeAnswer, mapAnswer, storeNext, mapNext, Answer.names.injEq] at answers
  rw [answers, wanted] at listed
  exact absurd listed (by decide)

end Cornus.Storage
