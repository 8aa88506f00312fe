import Cornus.Storage.Collect

/-!
# What garbage collection keeps and frees

The blobs to keep are given by the descriptors of the stored manifests.  The
collection follows child manifests and subjects; the config and the layers of a
manifest are leaves, whatever their content.  With that reading a collection
keeps every blob that a manifest which can be fetched leads to, frees every blob
that no marker or tag leads to, ends on every graph, and frees nothing when a
listing or a manifest cannot be read.
-/

namespace Cornus.Storage

open Nat List

open AList Option

open Relation (ReflTransGen)

variable (manifest : GcManifest)

def GcManifest.children : List String :=
  digests (manifest.manifests ++ manifest.subject.toList)

def GcManifest.descriptors : List String :=
  digests (manifest.config :: manifest.layers ++ (manifest.manifests ++ manifest.subject.toList))

section Graph

variable (decode : Decode) (objects : Objects) (digest : String)

def manifestAt : Option GcManifest :=
  match blobKey digest with
  | .error _ => none
  | .ok key => (objects.lookup key).bind fun content => decode content.toUTF8

/-- A manifest or the subject that a manifest names. -/
def Child (digest child : String) : Prop :=
  ∃ manifest, manifestAt decode objects digest = some manifest ∧ child ∈ manifest.children

def Names (digest named : String) : Prop :=
  ∃ manifest, manifestAt decode objects digest = some manifest ∧ named ∈ manifest.descriptors

/-- A chain of names leads there. -/
def Reaches (digest found : String) : Prop :=
  ReflTransGen (Names decode objects) digest found

/-- Reachable through child manifests and subjects, or named by a manifest that
is. -/
def Keeps (digest found : String) : Prop :=
  ∃ manifest, ReflTransGen (Child decode objects) digest manifest ∧
    (found = manifest ∨ Names decode objects manifest found)

/-- `GetManifest` may return the manifest with this digest. -/
def Served : Prop :=
  ∃ repo ref manifest, getManifest objects repo ref = .ok manifest ∧ manifest.digest = digest

def Rooted : Prop :=
  isDigest digest = true ∧
    ((∃ repo hex, manifestKey repo hex ∈ objects ∧ digest = digestOf hex) ∨
      ∃ repo tag raw, objects.lookup (tagKey repo tag) = some raw ∧ digest = trimSpace raw)

/-- The manifests that markers and tags lead to have at most 32 MiB. -/
def SmallManifests : Prop :=
  ∀ root digest key content, Rooted objects root →
    ReflTransGen (Child decode objects) root digest →
    blobKey digest = .ok key → objects.lookup key = some content →
      content.toUTF8.size ≤ gcManifestReadLimit

/-- A cached list names the repositories there are. -/
def Accurate (cached : Option (List String)) : Prop :=
  ∀ names, cached = some names → ∀ repo, repo ∈ names ↔ repo ∈ repos objects

def Walked (dir : Key) : Prop :=
  dir = ["repos"] ∨ ["repos"] <+: dir ∧ ∃ rest, rest ≠ [] ∧ dir ++ rest ∈ objects

variable (faults : Faults)

/-- A marker, or a tag of a repository that can be read. -/
def ReadableRoot (digest : String) : Prop :=
  isDigest digest = true ∧
    ((∃ repo hex, manifestKey repo hex ∈ objects ∧ digest = digestOf hex) ∨
      ∃ repo ∈ repos objects, ∃ tag ∈ tags objects repo,
        readTag faults objects repo tag = some digest)

def ListingFails (cached : Option (List String)) : Prop :=
  (cached = none ∧ ∃ dir, Walked objects dir ∧ faults.walk dir = true) ∨
    ∃ repo ∈ repos objects, faults.list (manifestsDir repo) = true ∨
      faults.list (tagsDir repo) = true

/-- Some manifest on the way exists and cannot be read. -/
def ReadingFails : Prop :=
  ∃ root digest key, ReadableRoot objects faults root ∧
    ReflTransGen (Child decode objects) root digest ∧
    blobKey digest = .ok key ∧ key ∈ objects ∧ faults.get key = true

end Graph

structure Collected (decode : Decode) (reach : String → String → Prop)
    (faults : Faults) (objects : Objects) (cached : Option (List String)) : Prop where
  ends : ∃ fuel, (gc decode faults objects fuel cached).isSome = true
  keeps : ∀ fuel outcome digest found key, gc decode faults objects fuel cached = some outcome →
    Served objects digest → reach digest found → blobKey found = .ok key →
      outcome.objects.lookup key = objects.lookup key
  frees : ∀ fuel outcome found key, gc decode faults objects fuel cached = some outcome →
    outcome.error = none → blobKey found = .ok key →
    (∀ root, Rooted objects root → ¬reach root found) → outcome.objects.lookup key = none
  aborts : ∀ fuel outcome, gc decode faults objects fuel cached = some outcome →
    ListingFails objects faults cached ∨ ReadingFails decode objects faults →
      outcome.objects = objects

/-- Every collection of a quiescent store is exact. -/
def GcExact (decode : Decode) (reach : Objects → String → String → Prop) : Prop :=
  ∀ faults objects cached, Accurate objects cached →
    SmallManifests decode objects → Collected decode (reach objects) faults objects cached

section

variable (parsed : blobKey digest = .ok key)
include parsed

theorem blobKey_ok : ∃ hex, parseDigest digest = .ok hex ∧ key = blobKeyOf hex := by
  rw [blobKey] at parsed
  cases found : parseDigest digest with
  | error err =>
    rw [found] at parsed
    cases parsed
  | ok hex =>
    rw [found] at parsed
    exact ⟨hex, rfl, (Except.ok.inj parsed).symm⟩

theorem keyDigest_of_blobKey : keyDigest key = digest := by
  obtain ⟨hex, found, same⟩ := blobKey_ok parsed
  rw [same, blobKeyOf_eq found, keyDigest, (parseDigest_ok found).1]
  rfl

theorem isDigest_of_blobKey : isDigest digest = true := by
  obtain ⟨hex, found, _⟩ := blobKey_ok parsed
  rw [isDigest, found]
  rfl

theorem mem_blobKeys (stored : key ∈ objects) : key ∈ blobKeys objects := by
  obtain ⟨hex, found, same⟩ := blobKey_ok parsed
  apply mem_filter.mpr
  refine ⟨stored, ?_⟩
  rw [same, blobKeyOf_eq found]
  simp

end

theorem mem_repos_of_marker (plain : Plain hex) (stored : manifestKey repo hex ∈ objects) :
    sanitizeRepo repo ∈ repos objects := by
  rw [repos, mem_sortStrings, walkRepos_eq_map, List.mem_map]
  refine ⟨"repos" :: repoParts repo ++ ["manifests"], ?_, ?_⟩
  · rw [mem_markerDirs fun key held =>
      le_trans (length_le_depth held) (le_add_left _ _)]
    refine ⟨⟨repoParts repo ++ ["manifests"], rfl⟩, getLast?_concat, hex, ?_⟩
    rw [manifestKey_parts repo plain] at stored
    rw [append_assoc]
    exact stored
  · exact repoName_markers repo

theorem mem_manifestHexes (plain : Plain hex) :
    hex ∈ manifestHexes objects (sanitizeRepo repo) ↔ manifestKey repo hex ∈ objects := by
  rw [manifestHexes, mem_files, manifestsDir_eq, repoParts_sanitizeRepo,
    manifestKey_parts repo plain, append_assoc]
  rfl

theorem mem_repoRoots (given : repoRoots faults objects repo = .ok roots) :
    digest ∈ roots ↔ isDigest digest = true ∧
      ((∃ hex ∈ manifestHexes objects repo, digest = digestOf hex) ∨ ∃ tag ∈ tags objects repo,
          readTag faults objects repo tag = some digest) := by
  rw [repoRoots] at given
  split at given
  · cases given
  split at given <;> cases given
  rw [mem_filter, mem_append, List.mem_map, mem_filterMap, and_comm]
  simp only [eq_comm]

theorem walkReposIn_ok (walked : walkReposIn faults objects fuel dir = .ok names) :
    names = walkRepos objects fuel dir := by
  induction fuel generalizing dir names with
  | zero =>
    cases walked
    rfl
  | succ fuel ih =>
    rw [walkReposIn] at walked
    split at walked
    · cases walked
    simp only at walked
    split at walked <;> cases walked
    rename_i below gathered
    have total := gatherAll_eq_flatMap gathered fun name _ values given => ih given
    rw [walkRepos, total]

theorem not_fails_of_walk {below : Key} (walked : walkReposIn faults objects fuel dir = .ok names)
    (short : below.length < dir.length + fuel) (begins : dir <+: below)
    (listed : below = dir ∨ ∃ rest, rest ≠ [] ∧ below ++ rest ∈ objects) :
    faults.walk below = false := by
  induction fuel generalizing dir names with
  | zero =>
    have long := begins.length_le
    omega
  | succ fuel ih =>
    rw [walkReposIn] at walked
    split at walked
    · cases walked
    rename_i allowed
    simp only at walked
    split at walked
    · cases walked
    rename_i deeper gathered
    obtain ⟨more, rfl⟩ := begins
    cases more with
    | nil =>
      rw [append_nil]
      exact Bool.eq_false_of_not_eq_true allowed
    | cons name others =>
      rcases listed with same | ⟨rest, some_, stored⟩
      · simp at same
      have shown : name ∈ (listDir objects dir).filterMap Entry.dirName := by
        rw [mem_dirs]
        refine ⟨others ++ rest, by simp [some_], ?_⟩
        rw [append_assoc, cons_append] at stored
        exact stored
      obtain ⟨inner, given⟩ := gatherAll_ok gathered name shown
      apply ih given
      · simp only [length_append, length_cons, length_nil] at short ⊢
        omega
      · exact ⟨others, by simp⟩
      · exact .inr ⟨rest, some_, stored⟩

theorem mem_reposIn (accurate : Accurate objects cached)
    (given : reposIn faults objects cached = .ok names) (repo : String) :
    repo ∈ names ↔ repo ∈ repos objects := by
  cases cached with
  | some list =>
    cases given
    exact accurate _ rfl repo
  | none =>
    rw [reposIn] at given
    obtain ⟨found, walked, rfl⟩ := exists_of_map_ok given
    have deep : ∀ key ∈ objects, key.length ≤ (["repos"] : Key).length + depth objects :=
      fun key stored =>
        le_trans (length_le_depth stored) (le_add_left _ _)
    rw [walkReposIn_ok walked, repos, mem_sortStrings, mem_sortStrings,
      walkRepos_eq_map, walkRepos_eq_map]
    have deeper : ∀ key ∈ objects, key.length ≤ (["repos"] : Key).length + (depth objects + 1) :=
      fun key stored => le_succ_of_le (deep key stored)
    simp only [List.mem_map, mem_markerDirs deep, mem_markerDirs deeper]

structure Starts (objects : Objects) (faults : Faults) (roots : List String) : Prop where
  rooted : ∀ root ∈ roots, Rooted objects root
  complete : ∀ root, ReadableRoot objects faults root → root ∈ roots

theorem mem_gathered (gathered : gatherAll (repoRoots faults objects) names = .ok roots)
    (digest : String) : digest ∈ roots ↔ ∃ repo ∈ names, ∃ values,
      repoRoots faults objects repo = .ok values ∧ digest ∈ values := by
  have total : roots = names.flatMap fun repo =>
      ((repoRoots faults objects repo).toOption.getD []) := by
    apply gatherAll_eq_flatMap gathered
    intro repo _ values given
    rw [given]
    rfl
  rw [total, mem_flatMap]
  constructor
  · rintro ⟨repo, among, inside⟩
    obtain ⟨values, given⟩ := gatherAll_ok gathered repo among
    rw [given] at inside
    exact ⟨repo, among, values, given, inside⟩
  · rintro ⟨repo, among, values, given, inside⟩
    refine ⟨repo, among, ?_⟩
    rw [given]
    exact inside

theorem starts_of_gather (all : ∀ repo, repo ∈ names ↔ repo ∈ repos objects)
    (gathered : gatherAll (repoRoots faults objects) names = .ok roots) :
    Starts objects faults roots := by
  have mem := mem_gathered gathered
  constructor
  · intro root inRoots
    obtain ⟨repo, among, values, given, inside⟩ := (mem root).mp inRoots
    obtain ⟨digest, marker | ⟨tag, _, read⟩⟩ := (mem_repoRoots given).mp inside
    · obtain ⟨hex, listed, rfl⟩ := marker
      refine ⟨digest, .inl ⟨repo, hex, ?_, rfl⟩⟩
      have plain : Plain hex := plain_of_isDigest digest
      rw [manifestHexes, mem_files, manifestsDir_eq, append_assoc] at listed
      rw [manifestKey_parts repo plain]
      exact listed
    · refine ⟨digest, .inr ⟨repo, tag, ?_⟩⟩
      rw [readTag] at read
      split at read
      · cases read
      obtain ⟨raw, found, same⟩ := map_eq_some_iff.mp read
      exact ⟨raw, found, same.symm⟩
  · rintro root ⟨digest, marker | ⟨repo, listed, tag, among, read⟩⟩
    · obtain ⟨repo, hex, stored, rfl⟩ := marker
      have plain : Plain hex := plain_of_isDigest digest
      have inNames := (all _).mpr (mem_repos_of_marker plain stored)
      obtain ⟨values, given⟩ := gatherAll_ok gathered _ inNames
      apply (mem _).mpr
      refine ⟨_, inNames, values, given, (mem_repoRoots given).mpr ⟨digest, .inl ⟨hex, ?_, rfl⟩⟩⟩
      exact (mem_manifestHexes plain).mpr stored
    · have inNames := (all repo).mpr listed
      obtain ⟨values, given⟩ := gatherAll_ok gathered repo inNames
      apply (mem root).mpr
      exact ⟨repo, inNames, values, given, (mem_repoRoots given).mpr
        ⟨digest, .inr ⟨tag, among, read⟩⟩⟩

theorem Starts.reverse (starts : Starts objects faults roots) :
    Starts objects faults roots.reverse where
  rooted root member := starts.rooted root (mem_reverse.mp member)
  complete root readable := mem_reverse.mpr (starts.complete root readable)

theorem not_listingFails (all : ∀ repo, repo ∈ names ↔ repo ∈ repos objects)
    (given : reposIn faults objects cached = .ok names)
    (gathered : gatherAll (repoRoots faults objects) names = .ok roots) :
    ¬ListingFails objects faults cached := by
  rintro (⟨rfl, dir, walked, fault⟩ | ⟨repo, listed, fault⟩)
  · rw [reposIn] at given
    obtain ⟨below, found, rfl⟩ := exists_of_map_ok given
    have clear : faults.walk dir = false := by
      rcases walked with rfl | ⟨begins, rest, some_, stored⟩
      · apply not_fails_of_walk found _ prefix_rfl (.inl rfl)
        omega
      · apply not_fails_of_walk found _ begins (.inr ⟨rest, some_, stored⟩)
        have bound := length_le_depth stored
        have more := length_pos_of_ne_nil some_
        rw [length_append] at bound
        rw [length_singleton]
        omega
    rw [clear] at fault
    cases fault
  · obtain ⟨values, root⟩ := gatherAll_ok gathered repo ((all repo).mpr listed)
    rw [repoRoots] at root
    rcases fault with markers | tags
    · rw [if_pos markers] at root
      cases root
    · split at root <;> cases root

theorem Served.marked (served : Served objects digest) :
    isDigest digest = true ∧ ∃ repo hex, manifestKey repo hex ∈ objects ∧
      digest = digestOf hex := by
  obtain ⟨repo, ref, manifest, fetched, rfl⟩ := served
  rw [getManifest] at fetched
  split at fetched
  · cases fetched
  rename_i digest resolved
  split at fetched
  · cases fetched
  rename_i hex parsed
  split at fetched
  · cases fetched
  rename_i mediaType marker
  split at fetched <;> cases fetched
  refine ⟨?_, repo, hex, ?_, (parseDigest_ok parsed).1⟩
  · rw [isDigest, parsed]
    rfl
  · exact lookup_isSome.mp (isSome_of_eq_some marker)

theorem Served.readable (served : Served objects digest) : ReadableRoot objects faults digest :=
  ⟨served.marked.1, .inl served.marked.2⟩

section Mark

variable (decode : Decode) (faults : Faults) (objects : Objects)

def expand (digest : String) : Except GcError (List String) :=
  match parseManifestBlob decode faults objects digest with
  | .error .failed => .error (.read digest)
  | .error _ => .ok []
  | .ok manifest => .ok (digests manifest.subject.toList ++ (digests manifest.manifests).reverse)

def Marked (digest found : String) : Prop :=
  found = digest ∨ ∃ manifest,
    parseManifestBlob decode faults objects digest = .ok manifest ∧ found ∈ manifest.descriptors

variable {decode faults objects}

theorem mark_eq_search (fuel : Nat) (marking : Marking) :
    (mark decode faults objects fuel marking).map (·.map Marking.visited) =
      Search.search (expand decode faults objects) fuel marking.queue marking.visited := by
  induction fuel generalizing marking with
  | zero => rfl
  | succ fuel ih =>
    obtain ⟨queue, visited, reachable⟩ := marking
    cases queue with
    | nil => rfl
    | cons digest rest =>
      rw [mark, Search.search]
      simp only
      by_cases known : digest ∈ visited
      · rw [if_pos known, if_pos known]
        exact ih _
      · rw [if_neg known, if_neg known, expand]
        cases parseManifestBlob decode faults objects digest with
        | error err =>
          cases err with
          | failed => rfl
          | notFound => exact ih _
          | notManifest => exact ih _
        | ok manifest => exact ih _

variable {manifest : GcManifest} {found digest : String}

theorem mem_descriptors : found ∈ manifest.descriptors ↔ found ∈ digests manifest.subject.toList ++
        digests manifest.manifests ++ digests manifest.layers ++ digests [manifest.config] := by
  simp only [GcManifest.descriptors, digests, filter_append, filter_cons, mem_append, filter_nil]
  split <;> simp only [mem_cons, not_mem_nil, or_false] <;> tauto

theorem mem_children : found ∈ manifest.children ↔ found ∈ digests manifest.subject.toList ++
        (digests manifest.manifests).reverse := by
  simp only [GcManifest.children, digests, filter_append, mem_append, mem_reverse]
  exact or_comm

theorem mem_reachable (ended : mark decode faults objects fuel marking = some (.ok final))
    (before : ∀ found, found ∈ marking.reachable ↔
      ∃ digest ∈ marking.visited, Marked decode faults objects digest found) :
    ∀ found, found ∈ final.reachable ↔
      ∃ digest ∈ final.visited, Marked decode faults objects digest found := by
  induction fuel generalizing marking with
  | zero => cases ended
  | succ fuel ih =>
    obtain ⟨queue, visited, reachable⟩ := marking
    cases queue with
    | nil =>
      cases ended
      exact before
    | cons digest rest =>
      rw [mark] at ended
      simp only at ended before
      have marks : ∀ news, (∀ found, Marked decode faults objects digest found ↔
            found = digest ∨ found ∈ news) → ∀ found, found ∈ news ++ digest :: reachable ↔
              ∃ other ∈ digest :: visited, Marked decode faults objects other found := by
        intro news here found
        rw [exists_mem_cons_iff, here, mem_append, mem_cons, before]
        tauto
      split at ended
      · exact ih ended before
      split at ended
      · cases ended
      · rename_i unread
        exact ih ended (marks [] (by simp [Marked, unread]))
      · rename_i manifest read
        exact ih ended (marks _ (by simp [Marked, read, mem_descriptors]))

theorem parse_eq_of_small (small : SmallManifests decode objects) (rooted : Rooted objects root)
    (path : ReflTransGen (Child decode objects) root digest) :
    parseManifestBlob decode faults objects digest = .ok manifest ↔
      manifestAt decode objects digest = some manifest ∧
        ∀ key, blobKey digest = .ok key → faults.get key = false := by
  rw [parseManifestBlob, manifestAt]
  cases parsed : blobKey digest with
  | error err => simp
  | ok key =>
    simp only [Except.ok.injEq, forall_eq']
    cases fault : faults.get key with
    | true => simp
    | false =>
      cases found : objects.lookup key with
      | none => simp
      | some content =>
        have least := small root digest key content rooted path parsed found
        have whole : content.toUTF8.extract 0 gcManifestReadLimit = content.toUTF8 := by
          rw [← max_eq_left least]
          exact ByteArray.extract_zero_max_size
        simp only [whole, bind_some]
        cases decode content.toUTF8 <;> simp

theorem pushed_eq_zero (absent : digest ∉ objects.keys.map keyDigest) :
    Search.pushed (expand decode faults objects) digest = 0 := by
  have missing : ∀ key, blobKey digest = .ok key → objects.lookup key = none := by
    intro key parsed
    apply lookup_eq_none.mpr
    intro stored
    apply absent
    rw [← keyDigest_of_blobKey parsed]
    exact mem_map_of_mem stored
  rw [Search.pushed, expand, parseManifestBlob]
  cases parsed : blobKey digest with
  | error err => rfl
  | ok key =>
    simp only [missing key parsed]
    cases faults.get key <;> rfl

theorem mark_ends (queue : List String) :
    ∃ fuel, (mark decode faults objects fuel { queue }).isSome = true := by
  refine ⟨queue.length + Search.remaining (expand decode faults objects) []
    (objects.keys.map keyDigest) + 1, ?_⟩
  have ends := Search.search_ends (@pushed_eq_zero decode faults objects)
    (lt_succ_self (queue.length +
      Search.remaining (expand decode faults objects) [] (objects.keys.map keyDigest)))
  rw [← mark_eq_search _ { queue }, isSome_map] at ends
  exact ends

theorem no_fault_of_expand {next : List String}
    (expanded : expand decode faults objects digest = .ok next) :
    ∀ key, blobKey digest = .ok key → faults.get key = false := by
  intro key parsed
  cases fault : faults.get key with
  | false => rfl
  | true =>
    rw [expand, parseManifestBlob] at expanded
    simp only [parsed, fault, if_true] at expanded
    cases expanded

theorem search_of_mark
    (ended : mark decode faults objects fuel { queue := roots } = some (.ok final)) :
    Search.search (expand decode faults objects) fuel roots [] = some (.ok final.visited) := by
  rw [← mark_eq_search fuel { queue := roots }, ended]
  rfl

section Found

variable (small : SmallManifests decode objects) {fuel : Nat}
  {digest : String} (starts : Starts objects faults roots)
include small starts

theorem child_of_reached (reached : Search.Reached (expand decode faults objects) roots digest) :
    ∃ root ∈ roots, ReflTransGen (Child decode objects) root digest := by
  obtain ⟨root, mem, path⟩ := reached
  refine ⟨root, mem, ?_⟩
  induction path with
  | refl => exact .refl
  | tail _ edge ih =>
    obtain ⟨next, expanded, among⟩ := edge
    rw [expand] at expanded
    split at expanded
    · cases expanded
    · cases expanded
      cases among
    · rename_i manifest read
      cases expanded
      have stored := ((parse_eq_of_small small (starts.rooted root mem) ih).mp read).1
      exact ih.tail ⟨manifest, stored, mem_children.mpr among⟩

theorem reached_of_child {found : List String}
    (ended : Search.search (expand decode faults objects) fuel roots [] = some (.ok found))
    (mem : root ∈ roots)
    (path : ReflTransGen (Child decode objects) root digest) :
    Search.Reached (expand decode faults objects) roots digest := by
  induction path with
  | refl => exact .of_mem mem
  | tail before edge ih =>
    obtain ⟨manifest, stored, among⟩ := edge
    obtain ⟨next, expanded⟩ := Search.expands_of_search ended ih
    have clear := no_fault_of_expand expanded
    have read := (parse_eq_of_small small (starts.rooted root mem) before).mpr ⟨stored, clear⟩
    obtain ⟨start, inRoots, path⟩ := ih
    refine ⟨start, inRoots, path.tail ⟨_, ?_, mem_children.mp among⟩⟩
    rw [expand, read]

theorem mem_marks (ended : mark decode faults objects fuel { queue := roots } = some (.ok final))
    (found : String) :
    found ∈ final.reachable ↔ ∃ root ∈ roots, Keeps decode objects root found := by
  have searched := search_of_mark ended
  have visits := Search.mem_search_iff searched
  have marks := mem_reachable ended (by simp)
  rw [marks]
  constructor
  · rintro ⟨digest, visited, marked⟩
    obtain ⟨root, mem, path⟩ := child_of_reached small starts ((visits digest).mp visited)
    refine ⟨root, mem, digest, path, ?_⟩
    rcases marked with same | ⟨manifest, read, named⟩
    · exact .inl same
    have stored := (parse_eq_of_small small (starts.rooted root mem) path).mp read
    exact .inr ⟨manifest, stored.1, named⟩
  · rintro ⟨root, mem, digest, path, kept⟩
    have reached := reached_of_child small starts searched mem path
    refine ⟨digest, (visits digest).mpr reached, ?_⟩
    rcases kept with same | ⟨manifest, stored, named⟩
    · exact .inl same
    obtain ⟨next, expanded⟩ := Search.expands_of_search searched reached
    have read := (parse_eq_of_small small (starts.rooted root mem) path).mpr
      ⟨stored, no_fault_of_expand expanded⟩
    exact .inr ⟨manifest, read, named⟩

theorem not_readingFails
    (ended : mark decode faults objects fuel { queue := roots } = some (.ok final)) :
    ¬ReadingFails decode objects faults := by
  rintro ⟨root, digest, key, readable, path, parsed, _, fault⟩
  have searched := search_of_mark ended
  have reached := reached_of_child small starts searched (starts.complete root readable) path
  obtain ⟨next, expanded⟩ := Search.expands_of_search searched reached
  rw [no_fault_of_expand expanded key parsed] at fault
  cases fault

end Found

end Mark

section Sweep

variable {faults : Faults} {key : Key} {keys : List Key} {objects : Objects}

theorem lookup_sweep_kept (kept : keyDigest key ∈ reachable ∨ key ∉ keys) (freed : Nat)
    (objects : Objects) :
    (sweep faults reachable keys freed objects).objects.lookup key = objects.lookup key := by
  induction keys generalizing freed objects with
  | nil => rfl
  | cons first rest ih =>
    have later : keyDigest key ∈ reachable ∨ key ∉ rest := by
      rcases kept with marked | absent
      · exact .inl marked
      · exact .inr fun mem => absent (mem_cons_of_mem _ mem)
    rw [sweep]
    split
    · exact ih later freed objects
    rename_i doomed
    split
    · rfl
    rw [ih later, lookup_erase_ne]
    intro same
    rw [same] at kept
    rcases kept with marked | absent
    · exact doomed (.inr marked)
    · exact absent mem_cons_self

theorem lookup_sweep_none (gone : objects.lookup key = none) :
    (sweep faults reachable keys freed objects).objects.lookup key = none := by
  induction keys generalizing freed objects with
  | nil => exact gone
  | cons first rest ih =>
    rw [sweep]
    split
    · exact ih gone
    split
    · exact gone
    apply ih
    by_cases same : key = first
    · rw [same, lookup_erase]
    · rw [lookup_erase_ne same, gone]

theorem lookup_sweep_freed (ended : (sweep faults reachable keys freed objects).error = none)
    (listed : key ∈ keys) (digest : isDigest (keyDigest key) = true)
    (unmarked : keyDigest key ∉ reachable) :
    (sweep faults reachable keys freed objects).objects.lookup key = none := by
  induction keys generalizing freed objects with
  | nil => cases listed
  | cons first rest ih =>
    rw [sweep] at ended ⊢
    split at ended
    · rename_i skipped
      rw [if_pos skipped]
      apply ih ended
      rcases mem_cons.mp listed with same | later
      · rw [same] at digest unmarked
        rcases skipped with other | marked
        · rw [digest] at other
          cases other
        · exact absurd marked unmarked
      · exact later
    · rename_i doomed
      rw [if_neg doomed]
      split at ended
      · cases ended
      rename_i deletes
      rw [if_neg deletes]
      by_cases same : key = first
      · apply lookup_sweep_none
        rw [same, lookup_erase]
      · rcases mem_cons.mp listed with equal | later
        · exact absurd equal same
        · exact ih ended later

end Sweep

section Exact

variable {decode : Decode} {faults : Faults} {objects : Objects}

/-- How a collection ends: nothing is freed, or the blobs that are not marked are
swept. -/
theorem gc_cases (accurate : Accurate objects cached) (small : SmallManifests decode objects)
    (ended : gc decode faults objects fuel cached = some outcome) :
    (outcome.error ≠ none ∧ outcome.objects = objects) ∨
      ∃ roots marks, Starts objects faults roots ∧ (∀ found, found ∈ marks ↔
          ∃ root ∈ roots, Keeps decode objects root found) ∧
        ¬ListingFails objects faults cached ∧ ¬ReadingFails decode objects faults ∧
        outcome = sweep faults marks (blobKeys objects) 0 objects := by
  rw [gc] at ended
  cases given : reposIn faults objects cached with
  | error err =>
    rw [given] at ended
    cases ended
    exact .inl ⟨some_ne_none err, rfl⟩
  | ok names =>
    have all := mem_reposIn accurate given
    simp only [given] at ended
    cases gathered : gatherAll (repoRoots faults objects) names with
    | error err =>
      rw [gathered] at ended
      cases ended
      exact .inl ⟨some_ne_none err, rfl⟩
    | ok found =>
      have starts := (starts_of_gather all gathered).reverse
      simp only [gathered] at ended
      split at ended
      · cases ended
      · cases ended
        exact .inl ⟨some_ne_none _, rfl⟩
      · rename_i final marked
        split at ended
        · cases ended
          exact .inl ⟨some_ne_none _, rfl⟩
        · cases ended
          exact .inr ⟨found.reverse, final.reachable, starts, mem_marks small starts marked,
            not_listingFails all given gathered, not_readingFails small starts marked, rfl⟩

theorem gc_ends : ∃ fuel, (gc decode faults objects fuel cached).isSome = true := by
  cases given : reposIn faults objects cached with
  | error err =>
    refine ⟨0, ?_⟩
    simp only [gc, given, isSome_some]
  | ok names =>
    cases gathered : gatherAll (repoRoots faults objects) names with
    | error err =>
      refine ⟨0, ?_⟩
      simp only [gc, given, gathered, isSome_some]
    | ok roots =>
      have ends : ∃ fuel, (mark decode faults objects fuel
          { queue := roots.reverse }).isSome = true := mark_ends _
      obtain ⟨fuel, ended⟩ := ends
      refine ⟨fuel, ?_⟩
      obtain ⟨result, marked⟩ := isSome_iff_exists.mp ended
      simp only [gc, given, gathered, marked]
      cases result with
      | error err => rfl
      | ok final =>
        simp only
        split <;> rfl

/-- Every collection of a quiescent store is exact, config and layers being
leaves. -/
theorem gcExact_keeps (decode : Decode) : GcExact decode (Keeps decode) := by
  intro faults objects cached accurate small
  refine ⟨gc_ends, ?_, ?_, ?_⟩
  · intro fuel outcome digest found key ended served kept parsed
    rcases gc_cases accurate small ended with ⟨_, same⟩ | ⟨roots, marks, starts, marked, _, _, rfl⟩
    · rw [same]
    apply lookup_sweep_kept
    left
    rw [keyDigest_of_blobKey parsed, marked]
    exact ⟨digest, starts.complete digest served.readable, kept⟩
  · intro fuel outcome found key ended success parsed unreached
    rcases gc_cases accurate small ended with ⟨failed, _⟩ |
      ⟨roots, marks, starts, marked, _, _, rfl⟩
    · exact absurd success failed
    · by_cases stored : key ∈ objects
      · apply lookup_sweep_freed success (mem_blobKeys parsed stored)
        · rw [keyDigest_of_blobKey parsed]
          exact isDigest_of_blobKey parsed
        · rw [keyDigest_of_blobKey parsed, marked]
          rintro ⟨root, member, kept⟩
          exact unreached root (starts.rooted root member) kept
      · exact lookup_sweep_none (lookup_eq_none.mpr stored)
  · intro fuel outcome ended fails
    rcases gc_cases accurate small ended with ⟨_, same⟩ |
      ⟨roots, marks, starts, marked, listed, read, rfl⟩
    · exact same
    · rcases fails with listing | reading
      · exact absurd listing listed
      · exact absurd reading read

end Exact

def deepHex : String :=
  "2d711642b726b04401627ca9fbac32f5c8530fb1903cc4db02258717921a4881"

/-- A layer that is itself a manifest, with the text `x` as its config. -/
def layerText : String :=
  "\x7b\"config\":\x7b\"digest\":\"" ++ digestOf deepHex ++ "\"\x7d\x7d"

def layerHex : String :=
  "64b8edc0177914ca30b7b073f2d7e02eeca16c0a0bc9491504eebb0f6750a83f"

def nestingText : String :=
  "\x7b\"layers\":[\x7b\"digest\":\"" ++ digestOf layerHex ++ "\"\x7d]\x7d"

def nestingHex : String :=
  "d85e42b9acdd88483594972a750f2be3cb98651ffbdd8931297cd5bc87fb0158"

def nestingStore : Objects :=
  (((AList.insert ["blobs", "sha256", "2d", deepHex] "x" ∅).insert
    ["blobs", "sha256", "64", layerHex] layerText).insert
      ["blobs", "sha256", "d8", nestingHex] nestingText).insert
        ["repos", "app", "manifests", nestingHex] "image"

/-- How the two manifests decode; the text `x` is not JSON. -/
def nestingDecode : Decode := fun bytes =>
  if bytes.data.toList = layerText.toUTF8.data.toList then
    some { config := digestOf deepHex }
  else if bytes.data.toList = nestingText.toUTF8.data.toList then
    some { layers := [digestOf layerHex] }
  else none

/-- The config of a manifest that is only a layer is freed. -/
theorem nestedLayer_not_gcExact : ¬GcExact nestingDecode (Reaches nestingDecode) := by
  intro exact_
  have small : SmallManifests nestingDecode nestingStore := by
    intro root digest key content _ _ _ found
    have sizes : ∀ entry ∈ nestingStore.entries, entry.2.toUTF8.size ≤ gcManifestReadLimit := by
      decide +kernel
    exact sizes ⟨key, content⟩ (mem_lookup_iff.mp found)
  have accurate : Accurate nestingStore none := by
    intro names impossible
    cases impossible
  -- one evaluation, so that the digests are read only once
  have facts : getManifest nestingStore "app" (digestOf nestingHex) =
        .ok ⟨nestingText, digestOf nestingHex, "image"⟩ ∧
      manifestAt nestingDecode nestingStore (digestOf nestingHex) =
        some { layers := [digestOf layerHex] } ∧
      manifestAt nestingDecode nestingStore (digestOf layerHex) =
        some { config := digestOf deepHex } ∧
      isDigest (digestOf layerHex) = true ∧
      blobKey (digestOf deepHex) = .ok ["blobs", "sha256", "2d", deepHex] ∧
      (gc nestingDecode {} nestingStore 3 none).map (fun outcome =>
        outcome.objects.lookup ["blobs", "sha256", "2d", deepHex]) = some none := by
    decide +kernel
  obtain ⟨fetched, atNesting, atLayer, isLayer, parsed, observed⟩ := facts
  have isDeep := isDigest_of_blobKey parsed
  have served : Served nestingStore (digestOf nestingHex) := ⟨"app", _, _, fetched, rfl⟩
  have layer : Names nestingDecode nestingStore (digestOf nestingHex) (digestOf layerHex) := by
    refine ⟨_, atNesting, mem_filter.mpr ⟨?_, isLayer⟩⟩
    simp
  have config : Names nestingDecode nestingStore (digestOf layerHex) (digestOf deepHex) := by
    refine ⟨_, atLayer, mem_filter.mpr ⟨?_, isDeep⟩⟩
    simp
  obtain ⟨outcome, ended, gone⟩ := map_eq_some_iff.mp observed
  have kept := (exact_ {} nestingStore none accurate small).keeps 3 outcome
    _ _ _ ended served (.tail (.single layer) config) parsed
  have stored : nestingStore.lookup ["blobs", "sha256", "2d", deepHex] = some "x" := by
    decide +kernel
  rw [gone, stored] at kept
  cases kept

end Cornus.Storage
