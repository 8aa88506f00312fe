import Cornus.Lib.Strings
import Mathlib.Data.List.AList
import Mathlib.Data.List.TakeWhile

/-!
# Digests, names and object keys

A key is a path; it is represented by its segments.  Repository names may
contain any legal segment, `manifests` and `tags` included, so that all markers
and tags live in one tree.
-/

namespace Cornus.Storage

open List Nat

inductive StorageError where
  | notFound
  /-- `invalid digest %q: missing algorithm` -/
  | missingAlgorithm (digest : String)
  /-- `unsupported digest algorithm %q` -/
  | unsupportedAlgorithm (algo : String)
  /-- `invalid sha256 digest length %d` -/
  | digestLength (length : Nat)
  /-- `invalid digest hex` -/
  | digestHex (hex : String)
  deriving DecidableEq

def isHexDigit (c : Char) : Bool :=
  ('0' ≤ c && c ≤ '9') || ('a' ≤ c && c ≤ 'f') || ('A' ≤ c && c ≤ 'F')

/-- `ParseDigest`; the algorithm it returns is always `sha256`. -/
def parseDigest (digest : String) : Except StorageError String :=
  let algo := digest.toList.takeWhile (· != ':')
  match digest.toList.dropWhile (· != ':') with
  | [] => .error (.missingAlgorithm digest)
  | _ :: hex =>
    if algo ≠ "sha256".toList then
      .error (.unsupportedAlgorithm (String.ofList algo))
    else if (String.ofList hex).utf8ByteSize ≠ 64 then
      .error (.digestLength (String.ofList hex).utf8ByteSize)
    else if hex.all isHexDigit then .ok (String.ofList hex)
    else .error (.digestHex (String.ofList hex))

def isDigest (ref : String) : Bool :=
  (parseDigest ref).toBool

def digestOf (hex : String) : String :=
  "sha256:" ++ hex

/-- The digest function, whose digests parse. -/
structure Digester where
  hex : String → String
  parses : ∀ content, parseDigest (digestOf (hex content)) = .ok (hex content)

/-- The path of an object, by its segments. -/
abbrev Key := List String

def cleanStep (out : Key) (segment : String) : Key :=
  if segment = "" ∨ segment = "." then out
  else if segment = ".." then
    match out.getLast? with
    | none => [".."]
    | some ".." => out ++ [".."]
    | some _ => out.dropLast
  else out ++ [segment]

/-- `path.Join`. -/
def pathJoin (parts : List String) : Key :=
  (parts.flatMap (splitOnChar '/')).foldl cleanStep []

def sanitizeChars : List Char → List Char
  | [] => []
  | '.' :: '.' :: rest => '_' :: sanitizeChars rest
  | c :: rest =>
    (if c = '/' ∨ c = '\\' then '_' else c) :: sanitizeChars rest

/-- `sanitize`. -/
def sanitize (text : String) : String :=
  String.ofList (sanitizeChars text.toList)

/-- `sanitizeRepo`. -/
def sanitizeRepo (repo : String) : String :=
  "/".intercalate ((splitOnChar '/' repo).map fun part =>
    if part = "" ∨ part = "." ∨ part = ".." then "_" else part)

def blobKeyOf (hex : String) : Key :=
  pathJoin ["blobs", "sha256", String.ofList (hex.toList.take 2), hex]

/-- The key of a blob. -/
def blobKey (digest : String) : Except StorageError Key :=
  (parseDigest digest).map blobKeyOf

/-- The key of a manifest's marker. -/
def manifestKey (repo hex : String) : Key :=
  pathJoin ["repos", sanitizeRepo repo, "manifests", hex]

/-- The key of a tag. -/
def tagKey (repo tag : String) : Key :=
  pathJoin ["repos", sanitizeRepo repo, "tags", sanitize tag]

def isLowerAlnum (c : Char) : Bool :=
  ('a' ≤ c && c ≤ 'z') || ('0' ≤ c && c ≤ '9')

/-- What has been read of a separator inside a name component. -/
inductive Separator where
  | none
  | dot
  | underscore
  | underscores
  | dashes
  deriving DecidableEq

/-- The rest of a name component, after an alphanumeric character and a part of a
separator: `((\.|_|__|-+)[a-z0-9]+)*`. -/
def componentRest : Separator → List Char → Bool
  | sep, [] => sep = .none
  | sep, c :: rest =>
    if isLowerAlnum c then componentRest .none rest
    else
      match sep, c with
      | .none, '.' => componentRest .dot rest
      | .none, '_' => componentRest .underscore rest
      | .underscore, '_' => componentRest .underscores rest
      | .none, '-' => componentRest .dashes rest
      | .dashes, '-' => componentRest .dashes rest
      | _, _ => false

def legalComponent (part : String) : Bool :=
  match part.toList with
  | [] => false
  | c :: rest => isLowerAlnum c && componentRest .none rest

variable (repo : String)

/-- The name fits the grammar of the distribution API. -/
def legalRepo : Bool :=
  (splitOnChar '/' repo).all legalComponent

def isWord (c : Char) : Bool :=
  isLowerAlnum c || ('A' ≤ c && c ≤ 'Z') || c == '_'

/-- The tag fits that grammar. -/
def legalTag (tag : String) : Bool :=
  match tag.toList with
  | [] => false
  | c :: rest =>
    isWord c && rest.length ≤ 127 && rest.all fun d => isWord d || d == '.' || d == '-'

def apartDots : List Char → Bool
  | '.' :: '.' :: _ => false
  | _ :: rest => apartDots rest
  | [] => true

/-- The tag has no two dots in a row, which `sanitize` would rewrite. -/
def dotless (tag : String) : Bool :=
  apartDots tag.toList

/-- A segment that paths and names keep as it is. -/
structure Plain (segment : String) : Prop where
  notEmpty : segment ≠ ""
  notDot : segment ≠ "."
  notDots : segment ≠ ".."
  whole : '/' ∉ segment.toList

variable {segment : String} {c : Char} {chars : List Char}

theorem Plain.of_first (chars : segment.toList = c :: rest) (first : c ≠ '.')
    (whole : '/' ∉ segment.toList) : Plain segment where
  notEmpty empty := by
    rw [empty] at chars
    cases chars
  notDot dot := by
    rw [dot] at chars
    exact first (cons.inj chars).1.symm
  notDots dots := by
    rw [dots] at chars
    exact first (cons.inj chars).1.symm
  whole

theorem componentRest_whole (accepted : componentRest sep chars = true) : '/' ∉ chars := by
  induction chars generalizing sep with
  | nil => simp
  | cons c rest ih =>
    unfold componentRest at accepted
    intro mem
    split at accepted
    · rename_i alnum
      rcases mem_cons.mp mem with rfl | later
      · exact absurd alnum (by decide)
      · exact ih accepted later
    · split at accepted
      all_goals first
        | exact absurd accepted Bool.false_ne_true
        | rcases mem_cons.mp mem with same | later
          · exact absurd same (by decide)
          · exact ih accepted later

theorem plain_of_component (legal : legalComponent part = true) : Plain part := by
  unfold legalComponent at legal
  split at legal
  · cases legal
  rename_i c rest chars
  rw [Bool.and_eq_true] at legal
  apply Plain.of_first chars
  · rintro rfl
    exact absurd legal.1 (by decide)
  · rw [chars]
    intro mem
    rcases mem_cons.mp mem with rfl | later
    · exact absurd legal.1 (by decide)
    · exact componentRest_whole legal.2 later

variable {tag : String}

theorem not_mem_of_tag (legal : legalTag tag = true)
    (other : (isWord c || c == '.' || c == '-') = false) : c ∉ tag.toList := by
  unfold legalTag at legal
  split at legal
  · cases legal
  rename_i first rest chars
  simp only [Bool.and_eq_true, all_eq_true] at legal
  rw [chars]
  intro mem
  rcases mem_cons.mp mem with rfl | later
  · simp [legal.1.1] at other
  · simp [legal.2 _ later] at other

theorem plain_of_tag (legal : legalTag tag = true) : Plain tag := by
  have noSlash := not_mem_of_tag legal (c := '/') (by decide)
  unfold legalTag at legal
  split at legal
  · cases legal
  rename_i c rest chars
  simp only [Bool.and_eq_true] at legal
  apply Plain.of_first chars _ noSlash
  rintro rfl
  exact absurd legal.1.1 (by decide)

variable {digest hex : String}

theorem parseDigest_ok (parsed : parseDigest digest = .ok hex) :
    digest = digestOf hex ∧ hex.utf8ByteSize = 64 ∧ hex.toList.all isHexDigit = true := by
  unfold parseDigest at parsed
  simp only at parsed
  split at parsed
  · cases parsed
  rename_i c rest after
  split_ifs at parsed with algorithm length digits
  cases parsed
  rw [not_not] at algorithm length
  rw [String.toList_ofList]
  refine ⟨?_, length, digits⟩
  have colon : c = ':' := by
    have head := head?_dropWhile_not (· != ':') digest.toList
    rw [after] at head
    simpa using head
  have parts := takeWhile_append_dropWhile (p := (· != ':')) (l := digest.toList)
  rw [after, colon, algorithm] at parts
  apply String.toList_injective
  rw [← parts]
  simp [digestOf]

theorem digestOf_injective (same : digestOf hex = digestOf other) : hex = other := by
  apply String.toList_injective
  have chars := congrArg String.toList same
  rw [digestOf, digestOf, String.toList_append, String.toList_append] at chars
  exact append_cancel_left chars

theorem plain_of_hex (parsed : parseDigest digest = .ok hex) : Plain hex := by
  obtain ⟨_, length, digits⟩ := parseDigest_ok parsed
  rw [all_eq_true] at digits
  cases chars : hex.toList with
  | nil =>
    rw [String.toList_eq_nil_iff] at chars
    rw [chars] at length
    cases length
  | cons c rest =>
    apply Plain.of_first chars
    · rintro rfl
      have digit := digits '.' (by rw [chars]; exact mem_cons_self)
      exact absurd digit (by decide)
    · intro mem
      exact absurd (digits _ mem) (by decide)

theorem plain_of_isDigest (digest : isDigest (digestOf hex) = true) : Plain hex := by
  rw [isDigest] at digest
  cases parsed : parseDigest (digestOf hex) with
  | error err =>
    rw [parsed] at digest
    cases digest
  | ok other =>
    have same := digestOf_injective (parseDigest_ok parsed).1
    rw [same]
    exact plain_of_hex parsed

theorem foldl_cleanStep {segments : List String}
    (plain : ∀ segment ∈ segments, Plain segment) (out : Key) :
    segments.foldl cleanStep out = out ++ segments := by
  induction segments generalizing out with
  | nil => simp
  | cons segment rest ih =>
    have own := plain segment mem_cons_self
    rw [foldl_cons, ih fun other mem =>
      plain other (mem_cons_of_mem _ mem), cleanStep,
      if_neg (by simp [own.notEmpty, own.notDot]), if_neg own.notDots,
      append_assoc, singleton_append]

theorem splitOnChar_of_plain (plain : Plain segment) : splitOnChar '/' segment = [segment] := by
  have split : splitOnChar '/' ((String.singleton '/').intercalate [segment]) = [segment] :=
    splitOnChar_intercalate '/' (by simpa using plain.whole) (by simp)
  simpa using split

theorem blobKeyOf_eq (parsed : parseDigest digest = .ok hex) : blobKeyOf hex =
      ["blobs", "sha256", String.ofList (hex.toList.take 2), hex] := by
  have plain := plain_of_hex parsed
  have shard : Plain (String.ofList (hex.toList.take 2)) := by
    cases chars : hex.toList with
    | nil => exact absurd (String.toList_eq_nil_iff.mp chars) plain.notEmpty
    | cons c rest =>
      have first : (String.ofList ((c :: rest).take 2)).toList = c :: rest.take 1 := by simp
      apply Plain.of_first first
      · rintro rfl
        obtain ⟨_, _, digits⟩ := parseDigest_ok parsed
        rw [chars] at digits
        exact absurd (all_eq_true.mp digits _ mem_cons_self) (by decide)
      · rw [String.toList_ofList, ← chars]
        intro mem
        exact plain.whole (mem_of_mem_take mem)
  have blobs : Plain "blobs" := Plain.of_first rfl (by decide) (by decide)
  have algo : Plain "sha256" := Plain.of_first rfl (by decide) (by decide)
  rw [blobKeyOf, pathJoin, foldl_cleanStep]
  · simp [splitOnChar_of_plain blobs, splitOnChar_of_plain algo,
      splitOnChar_of_plain shard, splitOnChar_of_plain plain]
  · simp [splitOnChar_of_plain blobs, splitOnChar_of_plain algo,
      splitOnChar_of_plain shard, splitOnChar_of_plain plain, blobs, algo, shard, plain]

theorem sanitizeChars_of_apart (apart : apartDots chars = true)
    (clean : ∀ c ∈ chars, c ≠ '/' ∧ c ≠ '\\') : sanitizeChars chars = chars := by
  fun_induction sanitizeChars chars with
  | case1 => rfl
  | case2 rest ih => cases apart
  | case3 c rest noDots ih =>
    obtain ⟨slash, backslash⟩ := clean c mem_cons_self
    rw [if_neg (by simp [slash, backslash])]
    have later : apartDots rest = true := by
      rw [apartDots] at apart
      · exact apart
      · intro others same dots
        exact noDots others same dots
    rw [ih later fun other mem =>
      clean other (mem_cons_of_mem _ mem)]

theorem sanitize_of_dotless (legal : legalTag tag = true)
    (apart : dotless tag = true) : sanitize tag = tag := by
  have clean : ∀ c ∈ tag.toList, c ≠ '/' ∧ c ≠ '\\' := by
    intro c mem
    constructor <;> rintro rfl <;> exact not_mem_of_tag legal (by decide) mem
  rw [sanitize, sanitizeChars_of_apart apart clean, String.ofList_toList]

/-- The segments of a repository name, as `sanitizeRepo` leaves them. -/
def repoParts : List String :=
  (splitOnChar '/' repo).map fun part =>
    if part = "" ∨ part = "." ∨ part = ".." then "_" else part

theorem plain_of_repoParts : ∀ segment ∈ repoParts repo, Plain segment := by
  intro segment mem
  obtain ⟨part, among, rfl⟩ := mem_map.mp mem
  split
  · exact Plain.of_first rfl (by decide) (by decide)
  rename_i kept
  simp only [not_or] at kept
  exact ⟨kept.1, kept.2.1, kept.2.2, free_of_mem_splitOnChar '/' among⟩

theorem splitOnChar_sanitizeRepo : splitOnChar '/' (sanitizeRepo repo) = repoParts repo := by
  apply splitOnChar_intercalate
  · intro part mem
    exact (plain_of_repoParts repo part mem).whole
  · intro empty
    exact splitOnChar_ne_nil '/' repo (map_eq_nil_iff.mp empty)

theorem repoParts_of_plain {repo : String}
    (plain : ∀ segment ∈ splitOnChar '/' repo, Plain segment) :
    repoParts repo = splitOnChar '/' repo := by
  conv_rhs => rw [← map_id (splitOnChar '/' repo)]
  apply map_congr_left
  intro part mem
  have own := plain part mem
  rw [if_neg (by simp [own.notEmpty, own.notDot, own.notDots])]
  rfl

theorem repoParts_sanitizeRepo : repoParts (sanitizeRepo repo) = repoParts repo := by
  rw [repoParts_of_plain, splitOnChar_sanitizeRepo]
  rw [splitOnChar_sanitizeRepo]
  exact plain_of_repoParts repo

theorem pathJoin_repo (plain : ∀ segment ∈ rest, Plain segment) :
    pathJoin ("repos" :: sanitizeRepo repo :: rest) = "repos" :: repoParts repo ++ rest := by
  have repos : Plain "repos" := Plain.of_first rfl (by decide) (by decide)
  have whole : rest.flatMap (splitOnChar '/') = rest := by
    conv_rhs => rw [← flatMap_singleton' rest]
    apply flatMap_congr
    intro segment mem
    exact splitOnChar_of_plain (plain segment mem)
  rw [pathJoin, flatMap_cons, flatMap_cons, whole,
    splitOnChar_of_plain repos, splitOnChar_sanitizeRepo, foldl_cleanStep]
  · simp
  · intro segment mem
    rcases mem_append.mp mem with here | later
    · rw [mem_singleton.mp here]
      exact repos
    · rcases mem_append.mp later with inRepo | inRest
      · exact plain_of_repoParts repo segment inRepo
      · exact plain segment inRest

theorem plain_manifests : Plain "manifests" := Plain.of_first rfl (by decide) (by decide)

theorem plain_tags : Plain "tags" := Plain.of_first rfl (by decide) (by decide)

theorem manifestKey_parts (plain : Plain hex) :
    manifestKey repo hex = "repos" :: repoParts repo ++ ["manifests", hex] :=
  pathJoin_repo repo (by simp [plain_manifests, plain])

section Legal

variable {repo : String} (legal : legalRepo repo = true)
include legal

theorem plain_of_legalRepo : ∀ segment ∈ splitOnChar '/' repo, Plain segment := by
  intro segment mem
  exact plain_of_component (all_eq_true.mp legal segment mem)

theorem repoParts_of_legal : repoParts repo = splitOnChar '/' repo :=
  repoParts_of_plain (plain_of_legalRepo legal)

theorem manifestKey_eq (plain : Plain hex) : manifestKey repo hex =
      "repos" :: splitOnChar '/' repo ++ ["manifests", hex] := by
  rw [manifestKey_parts repo plain, repoParts_of_legal legal]

theorem tagKey_eq (tagLegal : legalTag tag = true) (apart : dotless tag = true) :
    tagKey repo tag = "repos" :: splitOnChar '/' repo ++ ["tags", tag] := by
  rw [tagKey, sanitize_of_dotless tagLegal apart, pathJoin_repo, repoParts_of_legal legal]
  simp [plain_tags, plain_of_tag tagLegal]

end Legal

theorem not_digest_of_tag (legal : legalTag tag = true) : isDigest tag = false := by
  have noColon : ':' ∉ tag.toList := not_mem_of_tag legal (by decide)
  have noAlgorithm : tag.toList.dropWhile (· != ':') = [] := by
    rw [dropWhile_eq_nil_iff]
    intro c mem
    have ne : c ≠ ':' := fun same => noColon (same ▸ mem)
    simpa using ne
  rw [isDigest, parseDigest]
  simp only [noAlgorithm]
  rfl

theorem not_space_of_hexDigit (digit : isHexDigit c = true) : isSpace c = false := by
  simp only [isHexDigit, Bool.or_eq_true, Bool.and_eq_true,
    decide_eq_true_eq, Char.le_def, UInt32.le_iff_toNat_le] at digit
  have low : 48 ≤ c.toNat := by
    rcases digit with (⟨above, _⟩ | ⟨above, _⟩) | ⟨above, _⟩
    · exact above
    · exact le_trans (by decide) above
    · exact le_trans (by decide) above
  have high : c.toNat ≤ 102 := by
    rcases digit with (⟨_, below⟩ | ⟨_, below⟩) | ⟨_, below⟩
    · exact le_trans below (by decide)
    · exact below
    · exact le_trans below (by decide)
  simp only [isSpace, contains_eq_mem, mem_cons, not_mem_nil,
    Bool.or_eq_false_iff, decide_eq_false_iff_not, Bool.and_eq_false_imp,
    decide_eq_true_eq, or_false]
  exact ⟨by omega, by omega⟩

theorem trimSpace_digestOf (parsed : parseDigest (digestOf hex) = .ok hex) :
    trimSpace (digestOf hex) = digestOf hex := by
  obtain ⟨_, length, digits⟩ := parseDigest_ok parsed
  have chars : (digestOf hex).toList = "sha256:".toList ++ hex.toList := by
    rw [digestOf, String.toList_append]
  have front : ((digestOf hex).toList.dropWhile isSpace) = (digestOf hex).toList := by
    rw [chars]
    rfl
  have back : (digestOf hex).toList.reverse.dropWhile isSpace = (digestOf hex).toList.reverse := by
    rcases eq_nil_or_concat hex.toList with empty | ⟨before, last, ends⟩
    · rw [String.toList_eq_nil_iff] at empty
      rw [empty] at length
      cases length
    · have digit : isHexDigit last = true := by
        apply all_eq_true.mp digits
        rw [ends]
        simp
      rw [chars, ends, concat_eq_append, ← append_assoc,
        reverse_append, reverse_singleton, singleton_append, dropWhile_cons_of_neg]
      rw [not_space_of_hexDigit digit]
      exact Bool.false_ne_true
  rw [trimSpace, front, back, reverse_reverse, String.ofList_toList]

/-- The objects of the store, by what they are. -/
inductive Place where
  | blob (hex : String)
  | marker (repo hex : String)
  | tag (repo tag : String)
  deriving DecidableEq

namespace Place

def key : Place → Key
  | .blob hex => blobKeyOf hex
  | .marker repo hex => manifestKey repo hex
  | .tag repo name => tagKey repo name

/-- The names of the place are legal, and `sanitize` keeps them. -/
def Legal : Place → Prop
  | .blob hex => parseDigest (digestOf hex) = .ok hex
  | .marker repo hex =>
    legalRepo repo = true ∧ parseDigest (digestOf hex) = .ok hex
  | .tag repo name =>
    legalRepo repo = true ∧ legalTag name = true ∧ dotless name = true

def segments : Place → Key
  | .blob hex => ["blobs", "sha256", String.ofList (hex.toList.take 2), hex]
  | .marker repo hex => "repos" :: splitOnChar '/' repo ++ ["manifests", hex]
  | .tag repo name => "repos" :: splitOnChar '/' repo ++ ["tags", name]

variable {place : Place} {repo other : String}

theorem key_eq_segments (legal : place.Legal) : place.key = place.segments := by
  cases place with
  | blob hex => exact blobKeyOf_eq legal
  | marker repo hex => exact manifestKey_eq legal.1 (plain_of_hex legal.2)
  | tag repo name => exact tagKey_eq legal.1 legal.2.1 legal.2.2

theorem splitOnChar_injective (same : splitOnChar '/' repo = splitOnChar '/' other) :
    repo = other := by
  rw [← intercalate_splitOnChar '/' repo, same, intercalate_splitOnChar]

theorem repo_segments_inj (same : "repos" :: splitOnChar '/' repo ++ [kind, name] =
      "repos" :: splitOnChar '/' other ++ [otherKind, otherName]) :
    repo = other ∧ kind = otherKind ∧ name = otherName := by
  obtain ⟨front, back⟩ := append_inj' same rfl
  simp only [cons.injEq, and_true, true_and] at front back
  exact ⟨splitOnChar_injective front, back⟩

theorem key_injective {other : Place} (legal : place.Legal) (otherLegal : other.Legal)
    (same : place.key = other.key) : place = other := by
  rw [key_eq_segments legal, key_eq_segments otherLegal] at same
  cases place with
  | blob hex =>
    cases other with
    | blob otherHex =>
      simp only [segments, cons.injEq, and_true, true_and] at same
      rw [same.2]
    | marker | tag => simp [segments] at same
  | marker repo hex =>
    cases other with
    | blob => simp [segments] at same
    | marker otherRepo otherHex =>
      obtain ⟨rfl, _, rfl⟩ := repo_segments_inj same
      rfl
    | tag => exact absurd (repo_segments_inj same).2.1 (by decide)
  | tag repo name =>
    cases other with
    | blob => simp [segments] at same
    | marker => exact absurd (repo_segments_inj same).2.1 (by decide)
    | tag otherRepo otherName =>
      obtain ⟨rfl, _, rfl⟩ := repo_segments_inj same
      rfl

end Place

end Cornus.Storage
