import Cornus.Compose.Merge

/-!
# Including other Compose models

`processInclude` folds every included model under the including file.  Each
included model is loaded as a model of its own, with its own nested includes.
-/

namespace Cornus.Compose

open YamlMeta List

/-- One entry of the top-level `include` list. -/
structure IncludeRef where
  path : List String
  projectDirectory : String := ""
  envFile : List String := []

/-- What a Compose file says, by section. -/
structure ProjectDocument where
  name : String := ""
  services : Dict Service := ∅
  secrets : Dict SecretDef := ∅
  configs : Dict ConfigDef := ∅
  volumes : Dict VolumeDef := ∅
  networks : Dict NetworkDef := ∅
  includes : List IncludeRef := []
  egress : Option Egress := none
  ingress : Option Ingress := none
  telemetry : Option Telemetry := none
  credentials : Option Credentials := none
  shells : List String := []

/-- `parsedFile`: a document with the metadata of the file's root mapping. -/
structure ParsedFile where
  doc : ProjectDocument
  metadata : Option YamlMeta

/-- What the include machinery calls: the path functions, and the parsing of one
file up to and including its `extends`. -/
structure Loader where
  dir : String → String
  join : String → String → String
  isAbs : String → Bool
  abs : String → Except String String
  parseFile : String → List String → Except String ParsedFile
  resolveExtends : ParsedFile → String → List String → Except String ParsedFile

/-- One of the loops of `mergeProjectInto`; `metas` is the override's metadata
for the definitions of this kind. -/
def mergeDefs {Def : Type} (merge : Option YamlMeta → Def → Def → Def)
    (metas : Option YamlMeta) (dst override : Dict Def) : Dict Def :=
  override.entries.foldl (fun dst entry =>
    dst.put entry.1 (match dst.lookup entry.1 with
      | some existing => merge (key metas entry.1) existing entry.2
      | none => entry.2)) dst

/-- `mergeProjectInto`, with the metadata of the later file. -/
def mergeProjectInto (dst : ProjectDocument) (file : ParsedFile) : ProjectDocument :=
  { dst with
    name := if file.doc.name ≠ "" then file.doc.name else dst.name
    services := mergeDefs mergeService (key file.metadata "services") dst.services file.doc.services
    secrets := mergeDefs mergeSecretDef (key file.metadata "secrets") dst.secrets file.doc.secrets
    volumes := mergeDefs mergeVolumeDef (key file.metadata "volumes") dst.volumes file.doc.volumes
    networks := mergeDefs mergeNetworkDef (key file.metadata "networks")
      dst.networks file.doc.networks }

/-- The end of `expand`: the including file goes on top of `base`, and the
result is copied back. -/
def ParsedFile.adopt (file : ParsedFile) (base : ProjectDocument) : ParsedFile :=
  let base := mergeProjectInto base file
  { file with doc :=
      { file.doc with
        includes := [], name := base.name, services := base.services,
        secrets := base.secrets, volumes := base.volumes, networks := base.networks } }

namespace Loader

variable (sys : Loader)

/-- The absolute path of an include. -/
def absInclude (dir rel : String) : Except String String :=
  sys.abs (if sys.isAbs rel then rel else sys.join dir rel)

/-- The `env_file` paths of an include, from its base. -/
def resolveEnvFiles (base : String) (envFile : List String) : List String :=
  envFile.map fun file => if sys.isAbs file then file else sys.join base file

/-- The include entries of a file in document order, one for each path, with
the env files the entry's models are interpolated with. -/
def includeEntries (dir : String) (includes : List IncludeRef) : List (String × List String) :=
  includes.flatMap fun ref =>
    let envBase :=
      if ref.projectDirectory = "" then dir
      else if sys.isAbs ref.projectDirectory then ref.projectDirectory
      else sys.join dir ref.projectDirectory
    ref.path.map fun rel => (rel, sys.resolveEnvFiles envBase ref.envFile)

/-- The loop over the includes of a file. -/
def foldIncludes (load : String → List String → Except String ParsedFile)
    (dir : String) (stack : List String) :
    ProjectDocument → List (String × List String) → Except String ProjectDocument
  | base, [] => .ok base
  | base, (rel, envFiles) :: rest =>
    match sys.absInclude dir rel with
    | .error cause => .error ("compose: include: " ++ rel ++ ": " ++ cause)
    | .ok incAbs =>
      if incAbs ∈ stack then
        .error ("compose: include: circular reference: " ++ incAbs)
      else
        match load incAbs envFiles with
        | .error cause => .error cause
        | .ok inc =>
          foldIncludes load dir stack (mergeProjectInto base inc) rest

/-- `processInclude`, over the function that loads a file. -/
def expandWith (load : String → List String → Except String ParsedFile)
    (file : ParsedFile) (absFile : String) (stack : List String) : Except String ParsedFile :=
  if file.doc.includes = [] then
    .ok file
  else
    match sys.foldIncludes load (sys.dir absFile) stack {}
        (sys.includeEntries (sys.dir absFile) file.doc.includes) with
    | .error cause => .error cause
    | .ok base => .ok (file.adopt base)

/-- The reading of one file in `load`, before its own includes. -/
def read (absFile : String) (envFiles : List String) : Except String ParsedFile :=
  match sys.parseFile absFile envFiles with
  | .error cause => .error ("compose: include: " ++ absFile ++ ": " ++ cause)
  | .ok file => sys.resolveExtends file absFile envFiles

/-- `load`, down to a nesting depth. -/
def load : Nat → List String → String → List String → Except String ParsedFile
  | 0, _, absFile, _ =>
    .error ("include nested too deeply: " ++ absFile)
  | depth + 1, stack, absFile, envFiles =>
    match sys.read absFile envFiles with
    | .error cause => .error cause
    | .ok file =>
      sys.expandWith (load depth (absFile :: stack)) file absFile (absFile :: stack)

/-- `processInclude`, down to a nesting depth. -/
def processInclude (depth : Nat) (top : ParsedFile) (file : String) : Except String ParsedFile :=
  if top.doc.includes = [] then
    .ok top
  else
    match sys.abs file with
    | .error cause => .error ("compose: " ++ file ++ ": " ++ cause)
    | .ok absFile =>
      sys.expandWith (sys.load depth [absFile]) top absFile [absFile]

end Loader

/-- A file, with the files that its `include` names below it. -/
inductive IncludeTree where
  | node (path : String) (envFiles : List String) (file : ParsedFile) (children : List IncludeTree)

namespace IncludeTree

def path : IncludeTree → String
  | node path _ _ _ => path

def envFiles : IncludeTree → List String
  | node _ envFiles _ _ => envFiles

def file : IncludeTree → ParsedFile
  | node _ _ file _ => file

mutual

/-- The longest chain of includes. -/
def height : IncludeTree → Nat
  | node _ _ _ children => heights children + 1

/-- The greatest nesting depth of several trees. -/
def heights : List IncludeTree → Nat
  | [] => 0
  | tree :: rest => max (height tree) (heights rest)

end

mutual

/-- The tree is what its root file and the include entries of its files lead to,
and no file includes one it is being included from. -/
def Connected (sys : Loader) (stack : List String) : IncludeTree → Prop
  | node path envFiles file children =>
    sys.read path envFiles = .ok file ∧
      Includes sys (path :: stack) (sys.dir path)
        (sys.includeEntries (sys.dir path) file.doc.includes) children

/-- The children are the files that the entries name. -/
def Includes (sys : Loader) (stack : List String) (dir : String) :
    List (String × List String) → List IncludeTree → Prop
  | [], [] => True
  | (rel, envFiles) :: entries, tree :: rest =>
    sys.absInclude dir rel = .ok tree.path ∧ envFiles = tree.envFiles ∧
      tree.path ∉ stack ∧ Connected sys stack tree ∧ Includes sys stack dir entries rest
  | _, _ => False

end

mutual

/-- What `processInclude` makes of the tree. -/
def expanded : IncludeTree → ParsedFile
  | node _ _ file children =>
    if file.doc.includes = [] then file
    else file.adopt (expandedOnto {} children)

/-- The children, merged one after the other. -/
def expandedOnto (base : ProjectDocument) : List IncludeTree → ProjectDocument
  | [] => base
  | tree :: rest => expandedOnto (mergeProjectInto base (expanded tree)) rest

end

end IncludeTree

/-- One kind of definition, with its section and its merge. -/
structure DefKind (Def : Type) where
  get : ProjectDocument → Dict Def
  section_ : String
  merge : Option YamlMeta → Def → Def → Def

def serviceKind : DefKind Service :=
  { get := ProjectDocument.services, section_ := "services", merge := mergeService }

def secretKind : DefKind SecretDef :=
  { get := ProjectDocument.secrets, section_ := "secrets", merge := mergeSecretDef }

def configKind : DefKind ConfigDef :=
  { get := ProjectDocument.configs, section_ := "configs", merge := mergeConfigDef }

def volumeKind : DefKind VolumeDef :=
  { get := ProjectDocument.volumes, section_ := "volumes", merge := mergeVolumeDef }

def networkKind : DefKind NetworkDef :=
  { get := ProjectDocument.networks, section_ := "networks", merge := mergeNetworkDef }

namespace DefKind

variable {Def : Type} (kind : DefKind Def) (name : String) (file : ParsedFile)

/-- A file's definition of a name, with what that file says of it. -/
def written (metas : Option YamlMeta) (defs : Dict Def) : List (Option YamlMeta × Def) :=
  (defs.lookup name).toList.map (Prod.mk (key metas name))

/-- The definition of the name in the file itself. -/
def own : List (Option YamlMeta × Def) :=
  written name (key file.metadata kind.section_) (kind.get file.doc)

/-- One more definition over what those before it come to. -/
def onto (before : Option Def) (given : Option YamlMeta × Def) : Option Def :=
  some (match before with
    | none => given.2
    | some existing => kind.merge given.1 existing given.2)

mutual

/-- Every definition of a name in a tree: the included models in document order,
and the including file last. -/
def definitions : IncludeTree → List (Option YamlMeta × Def)
  | .node _ _ file children => definitionsIn children ++ kind.own name file

/-- Those of a list of trees. -/
def definitionsIn : List IncludeTree → List (Option YamlMeta × Def)
  | [] => []
  | tree :: rest => definitions tree ++ definitionsIn rest

end

/-- The definitions of a name merged, each with the metadata of the file that
writes it. -/
def folded (tree : IncludeTree) : Option Def :=
  (kind.definitions name tree).foldl kind.onto none

/-- The definitions a model has from its own includes. -/
def nested : IncludeTree → List (Option YamlMeta × Def)
  | .node _ _ _ children => kind.definitionsIn name children

mutual

/-- No model has a definition of the name from its own includes when a model
included before it defines the name. -/
def Unmixed : IncludeTree → Prop
  | .node _ _ _ children => UnmixedIn [] children

/-- The same of a list, given the definitions before it. -/
def UnmixedIn (before : List (Option YamlMeta × Def)) : List IncludeTree → Prop
  | [] => True
  | tree :: rest =>
    (before = [] ∨ kind.nested name tree = []) ∧ Unmixed tree ∧
      UnmixedIn (before ++ kind.definitions name tree) rest

end

/-- A name defined anywhere is defined, and one defined once is unchanged. -/
def Kept (tree : IncludeTree) (result : ProjectDocument) : Prop :=
  (∀ name, kind.definitions name tree ≠ [] → (kind.get result).lookup name ≠ none) ∧
    ∀ name given, kind.definitions name tree = [given] →
      (kind.get result).lookup name = some given.2

/-- No definition of this kind is lost, and each is the fold of the definitions of
its name. -/
def Lossless (tree : IncludeTree) (result : ProjectDocument) : Prop :=
  kind.Kept tree result ∧ ∀ name, (kind.get result).lookup name = kind.folded name tree

end DefKind

variable (tree : IncludeTree)

/-- Every kind of definition is kept. -/
def IncludeLossless (result : ProjectDocument) : Prop :=
  serviceKind.Lossless tree result ∧ secretKind.Lossless tree result ∧
    configKind.Lossless tree result ∧ volumeKind.Lossless tree result ∧
    networkKind.Lossless tree result

/-- Names and single definitions are kept, of every kind but the configs. -/
def IncludeKept (result : ProjectDocument) : Prop :=
  serviceKind.Kept tree result ∧ secretKind.Kept tree result ∧
    volumeKind.Kept tree result ∧ networkKind.Kept tree result

/-- The nested definitions of every kind but the configs come first. -/
def NestedFirst : Prop :=
  ∀ name, serviceKind.Unmixed name tree ∧ secretKind.Unmixed name tree ∧
    volumeKind.Unmixed name tree ∧ networkKind.Unmixed name tree

/-- Every config the included models define is defined again by the including
file, and nothing of theirs shows through it. -/
def ConfigsRestated (top : ParsedFile) (children : List IncludeTree) : Prop :=
  ∀ name shared, (configKind.definitionsIn name children).foldl configKind.onto none = some shared →
    ∃ given, top.doc.configs.lookup name = some given ∧
      mergeConfigDef (key (key top.metadata "configs") name) shared given = given

namespace DefKind

variable {Def : Type} {kind : DefKind Def} {name : String}

theorem foldl_onto_eq_none_iff : ∀ {before : Option Def} (given : List (Option YamlMeta × Def)),
    given.foldl kind.onto before = none ↔ before = none ∧ given = []
  | before, [] => by simp
  | before, first :: rest => by
    rw [foldl_cons, foldl_onto_eq_none_iff rest]
    simp [onto]

theorem foldl_written_none (metas : Option YamlMeta) (defs : Dict Def) :
    (written name metas defs).foldl kind.onto none = defs.lookup name := by
  rw [written]
  cases defs.lookup name <;> rfl

theorem lookup_foldl_entries (metas : Option YamlMeta) :
    ∀ (entries : List (Σ _ : String, Def)), entries.NodupKeys →
      ∀ dst : Dict Def, (entries.foldl (fun dst entry => dst.put entry.1
          (match dst.lookup entry.1 with
          | some existing => kind.merge (key metas entry.1) existing entry.2
          | none => entry.2)) dst).lookup name =
        ((entries.dlookup name).toList.map (Prod.mk (key metas name))).foldl
          kind.onto (dst.lookup name)
  | [], _, dst => rfl
  | ⟨first, given⟩ :: rest, distinct, dst => by
    obtain ⟨fresh, others⟩ := nodupKeys_cons.mp distinct
    rw [foldl_cons, lookup_foldl_entries metas rest others]
    by_cases here : name = first
    · subst here
      have absent : rest.dlookup name = none := dlookup_eq_none.mpr fresh
      rw [absent, dlookup_cons_eq]
      refine (AList.lookup_insert dst).trans ?_
      change _ = kind.onto (dst.lookup name) (key metas name, given)
      cases dst.lookup name <;> rfl
    · rw [dlookup_cons_ne _ _ here]
      exact congrArg (fun before => foldl kind.onto before _) (AList.lookup_insert_ne here)

theorem lookup_mergeDefs (metas : Option YamlMeta) (dst override : Dict Def) :
    (mergeDefs kind.merge metas dst override).lookup name =
      (written name metas override).foldl kind.onto (dst.lookup name) :=
  lookup_foldl_entries metas override.entries override.nodupKeys dst

mutual

/-- One definition cannot be mixed with another. -/
theorem unmixed_of_single : ∀ tree, (kind.definitions name tree).length ≤ 1 →
      kind.Unmixed name tree
  | .node path envFiles file children, single => by
    rw [definitions, length_append] at single
    rw [Unmixed]
    exact unmixedIn_of_single children [] (by rw [nil_append]; omega)

theorem unmixedIn_of_single : ∀ trees before,
      (before ++ kind.definitionsIn name trees).length ≤ 1 → kind.UnmixedIn name before trees
  | [], before, single => by
    rw [UnmixedIn]
    trivial
  | tree :: rest, before, single => by
    rw [definitionsIn, ← append_assoc] at single
    have parts := single
    rw [length_append, length_append] at parts
    rw [UnmixedIn]
    refine ⟨?_, unmixed_of_single tree (by omega), unmixedIn_of_single rest _ single⟩
    cases tree with
    | node path envFiles file children =>
      rw [definitions, length_append] at parts
      rw [nested, ← length_eq_zero_iff, ← length_eq_zero_iff]
      omega

end

/-- What is folded is kept. -/
theorem lossless_iff {tree : IncludeTree} : kind.Lossless tree result ↔
      ∀ name, (kind.get result).lookup name = kind.folded name tree := by
  refine ⟨And.right, fun folds => ⟨⟨?_, ?_⟩, folds⟩⟩
  · intro name defined
    rw [folds, folded, ne_eq, foldl_onto_eq_none_iff]
    exact fun absent => defined absent.2
  · intro name given single
    rw [folds, folded, single]
    rfl

/-- The definitions of a kind that `mergeProjectInto` folds and `expand` copies
back. -/
structure Carried (kind : DefKind Def) : Prop where
  start : kind.get {} = ∅
  folds : ∀ dst file, kind.get (mergeProjectInto dst file) =
    mergeDefs kind.merge (key file.metadata kind.section_) (kind.get dst) (kind.get file.doc)
  copied : ∀ file base, kind.get (ParsedFile.adopt file base).doc =
    kind.get (mergeProjectInto base file)

theorem serviceKind_carried : serviceKind.Carried := ⟨rfl, fun _ _ => rfl, fun _ _ => rfl⟩

theorem secretKind_carried : secretKind.Carried := ⟨rfl, fun _ _ => rfl, fun _ _ => rfl⟩

theorem volumeKind_carried : volumeKind.Carried := ⟨rfl, fun _ _ => rfl, fun _ _ => rfl⟩

theorem networkKind_carried : networkKind.Carried := ⟨rfl, fun _ _ => rfl, fun _ _ => rfl⟩

theorem Carried.lookup_empty (carried : kind.Carried) : (kind.get {}).lookup name = none := by
  rw [carried.start]
  rfl

theorem Carried.lookup_merged (carried : kind.Carried) (dst : ProjectDocument)
    (file : ParsedFile) : (kind.get (mergeProjectInto dst file)).lookup name =
      (kind.own name file).foldl kind.onto ((kind.get dst).lookup name) := by
  rw [carried.folds, lookup_mergeDefs, own]

end DefKind

namespace IncludeTree

theorem expanded_metadata : (expanded tree).metadata = tree.file.metadata := by
  cases tree with
  | node path envFiles file children =>
    rw [expanded]
    split <;> rfl

theorem children_of_none {dir : String}
    (connected : Includes sys stack dir [] children) : children = [] := by
  cases children with
  | nil => rfl
  | cons tree rest => exact connected.elim

section

variable {Def : Type} {kind : DefKind Def} (carried : kind.Carried) (name : String)
include carried

/-- A model is its own definitions over those of its includes. -/
theorem lookup_expanded_node {path : String} {envFiles : List String} (file : ParsedFile)
    (connected : Includes sys stack dir (sys.includeEntries dir file.doc.includes) children) :
    (kind.get (expanded (.node path envFiles file children)).doc).lookup name =
      (kind.own name file).foldl kind.onto
        ((kind.get (expandedOnto {} children)).lookup name) := by
  rw [expanded]
  split
  · rename_i bare
    rw [bare] at connected
    rw [children_of_none connected, expandedOnto, carried.lookup_empty, DefKind.own,
      DefKind.foldl_written_none]
  · rw [carried.copied, carried.lookup_merged]

theorem lookup_expanded_node_of {path : String} {envFiles : List String} (file : ParsedFile)
    (connected : Includes sys stack dir (sys.includeEntries dir file.doc.includes) children)
    (within : (kind.get (expandedOnto {} children)).lookup name =
      (kind.definitionsIn name children).foldl kind.onto none) :
    (kind.get (expanded (.node path envFiles file children)).doc).lookup name =
      kind.folded name (.node path envFiles file children) := by
  rw [lookup_expanded_node carried name file connected, within, DefKind.folded,
    DefKind.definitions, foldl_append]

mutual

theorem lookup_expanded_eq_none_iff : ∀ (tree : IncludeTree) (stack : List String),
      Connected sys stack tree →
        ((kind.get (expanded tree).doc).lookup name = none ↔ kind.definitions name tree = [])
  | .node path envFiles file children, stack, connected => by
    rw [Connected] at connected
    rw [lookup_expanded_node carried name file connected.2, DefKind.foldl_onto_eq_none_iff,
      lookup_expandedOnto_eq_none_iff children _ _ _ connected.2, DefKind.definitions,
      append_eq_nil_iff, carried.lookup_empty]
    simp

theorem lookup_expandedOnto_eq_none_iff : ∀ (trees : List IncludeTree) (stack : List String)
      (dir : String) (entries : List (String × List String)),
      Includes sys stack dir entries trees → ∀ {base : ProjectDocument},
        ((kind.get (expandedOnto base trees)).lookup name = none ↔
          (kind.get base).lookup name = none ∧ kind.definitionsIn name trees = [])
  | [], stack, dir, entries, connected, base => by
    rw [expandedOnto, DefKind.definitionsIn]
    simp
  | tree :: rest, stack, dir, [], connected, base => by
    exact absurd connected (by simp [Includes])
  | tree :: rest, stack, dir, (rel, envFiles) :: entries, connected, base => by
    rw [Includes] at connected
    obtain ⟨_, _, _, here, others⟩ := connected
    have first := lookup_expanded_eq_none_iff tree stack here
    rw [expandedOnto, lookup_expandedOnto_eq_none_iff rest stack dir entries others,
      carried.lookup_merged, DefKind.foldl_onto_eq_none_iff, DefKind.definitionsIn,
      append_eq_nil_iff, ← first, DefKind.own, DefKind.written]
    simp [and_assoc]

end

mutual

theorem lookup_expanded : ∀ (tree : IncludeTree) (stack : List String), Connected sys stack tree →
      kind.Unmixed name tree → (kind.get (expanded tree).doc).lookup name = kind.folded name tree
  | .node path envFiles file children, stack, connected, unmixed => by
    rw [Connected] at connected
    rw [DefKind.Unmixed] at unmixed
    exact lookup_expanded_node_of carried name file connected.2
      (lookup_expandedOnto children _ _ _ connected.2 [] carried.lookup_empty unmixed)

/-- The models so far come to the fold of their definitions. -/
theorem lookup_expandedOnto : ∀ (trees : List IncludeTree) (stack : List String) (dir : String)
      (entries : List (String × List String)), Includes sys stack dir entries trees →
        ∀ (before : List (Option YamlMeta × Def)) {base : ProjectDocument},
          (kind.get base).lookup name = before.foldl kind.onto none →
            kind.UnmixedIn name before trees →
              (kind.get (expandedOnto base trees)).lookup name =
                (before ++ kind.definitionsIn name trees).foldl kind.onto none
  | [], stack, dir, entries, connected, before, base, sofar, unmixed => by
    rw [expandedOnto, DefKind.definitionsIn, append_nil, sofar]
  | tree :: rest, stack, dir, [], connected, before, base, sofar, unmixed => by
    exact absurd connected (by simp [Includes])
  | tree :: rest, stack, dir, (rel, envFiles) :: entries, connected, before, base, sofar,
      unmixed => by
    rw [Includes] at connected
    obtain ⟨_, _, _, here, others⟩ := connected
    rw [DefKind.UnmixedIn] at unmixed
    obtain ⟨apart, within, after⟩ := unmixed
    have first := lookup_expanded tree stack here within
    rw [expandedOnto, DefKind.definitionsIn, ← append_assoc]
    refine lookup_expandedOnto rest stack dir entries others _ ?_ after
    rw [carried.lookup_merged, sofar, foldl_append]
    obtain alone | bare := apart
    · rw [alone, foldl_nil, DefKind.own, DefKind.foldl_written_none, first]
      rfl
    · -- Without nested definitions the model has its file's own, under that file's metadata.
      have same : kind.definitions name tree = kind.own name tree.file := by
        cases tree with
        | node path envFiles file children =>
          rw [DefKind.nested] at bare
          rw [DefKind.definitions, bare]
          rfl
      rw [DefKind.folded, same, DefKind.own, DefKind.foldl_written_none] at first
      rw [same, DefKind.own, DefKind.own, expanded_metadata, DefKind.written, first]
      rfl

end

variable (file : ParsedFile) (path : String)

/-- The whole tree, whose root the caller has parsed. -/
theorem expanded_folded
    (connected : Includes sys stack dir (sys.includeEntries dir file.doc.includes) children)
    (unmixed : kind.Unmixed name (.node path [] file children)) :
    (kind.get (expanded (.node path [] file children)).doc).lookup name =
      kind.folded name (.node path [] file children) := by
  rw [DefKind.Unmixed] at unmixed
  exact lookup_expanded_node_of carried name file connected
    (lookup_expandedOnto carried name children _ _ _ connected [] carried.lookup_empty unmixed)

end

theorem expanded_kept {Def : Type} {kind : DefKind Def} (carried : kind.Carried)
    (file : ParsedFile) (path : String)
    (connected : Includes sys stack dir (sys.includeEntries dir file.doc.includes) children) :
    kind.Kept (.node path [] file children) (expanded (.node path [] file children)).doc := by
  constructor
  · intro name defined
    rw [lookup_expanded_node carried name file connected, ne_eq, DefKind.foldl_onto_eq_none_iff,
      lookup_expandedOnto_eq_none_iff carried name children _ _ _ connected]
    rintro ⟨⟨-, within⟩, none_⟩
    apply defined
    rw [DefKind.definitions, within, none_]
    rfl
  · intro name given single
    rw [expanded_folded carried name file path connected
      (DefKind.unmixed_of_single _ (by rw [single]; rfl)), DefKind.folded, single]
    rfl

mutual

theorem load_connected : ∀ (tree : IncludeTree) (stack : List String) (depth : Nat),
      Connected sys stack tree → height tree ≤ depth →
        sys.load depth stack tree.path tree.envFiles = .ok (expanded tree)
  | .node path envFiles file children, stack, depth, connected, deep => by
    rw [Connected] at connected
    rw [height] at deep
    cases depth with
    | zero => omega
    | succ depth =>
      have within := foldIncludes_connected children (path :: stack)
        (sys.dir path) depth _ connected.2 (by omega) {}
      change sys.load (depth + 1) stack path envFiles = _
      rw [Loader.load, connected.1]
      change sys.expandWith _ file path _ = _
      rw [Loader.expandWith, within, expanded]
      split <;> rfl

theorem foldIncludes_connected : ∀ (trees : List IncludeTree) (stack : List String) (dir : String)
      (depth : Nat) (entries : List (String × List String)),
      Includes sys stack dir entries trees → heights trees ≤ depth →
        ∀ base, sys.foldIncludes (sys.load depth stack) dir stack base
          entries = .ok (expandedOnto base trees)
  | [], stack, dir, depth, [], connected, deep, base => by
    rw [Loader.foldIncludes, expandedOnto]
  | [], stack, dir, depth, entry :: entries, connected, deep, base => by
    exact absurd connected (by simp [Includes])
  | tree :: rest, stack, dir, depth, [], connected, deep, base => by
    exact absurd connected (by simp [Includes])
  | tree :: rest, stack, dir, depth, (rel, envFiles) :: entries, connected, deep, base => by
      rw [Includes] at connected
      obtain ⟨resolved, environment, fresh, here, others⟩ := connected
      rw [heights] at deep
      have loaded := load_connected tree stack depth here (by omega)
      subst environment
      simp only [Loader.foldIncludes, resolved, if_neg fresh, loaded]
      rw [expandedOnto]
      exact foldIncludes_connected rest stack dir depth entries others (by omega) _

end

end IncludeTree

/-- A result with the including file's configs alone. -/
theorem configs_lossless_iff (path : String) {top : ParsedFile} (children : List IncludeTree)
    {result : ProjectDocument} (configs : configKind.get result = top.doc.configs) :
    configKind.Lossless (.node path [] top children) result ↔ ConfigsRestated top children := by
  rw [DefKind.lossless_iff]
  unfold ConfigsRestated
  apply forall_congr'
  intro name
  rw [configs, DefKind.folded, DefKind.definitions, foldl_append, DefKind.own, DefKind.written]
  change top.doc.configs.lookup name = foldl _ _ ((top.doc.configs.lookup name).toList.map _) ↔ _
  cases foldl configKind.onto none (configKind.definitionsIn name children) with
  | none => cases top.doc.configs.lookup name <;> simp [DefKind.onto]
  | some shared =>
    cases top.doc.configs.lookup name with
    | none => simp
    | some given => simpa [DefKind.onto, configKind] using eq_comm

variable (shared : ParsedFile)

/-- A directory `/app` whose only other file is `shared.yaml`. -/
def sharedLoader : Loader :=
  { dir := fun _ => "/app"
    join := fun dir rel => dir ++ "/" ++ rel
    isAbs := fun path => path.toList.head? = some '/'
    abs := .ok
    parseFile := fun path _ =>
      if path = "/app/shared.yaml" then .ok shared else .error "no such file"
    resolveExtends := fun file _ _ => .ok file }

/-- A file with one service that includes `shared.yaml`. -/
def includingFile : ParsedFile :=
  { doc :=
      { services := AList.singleton "web" { image := "nginx" }
        includes := [{ path := ["shared.yaml"] }] }
    metadata := none }

/-- A service and the secret it uses. -/
def secretModel : ParsedFile :=
  { doc :=
      { services := AList.singleton "db" { image := "postgres" }
        secrets := AList.singleton "password" { file := "./password" } }
    metadata := none }

/-- A file with one config. -/
def configModel : ParsedFile :=
  { doc := { configs := AList.singleton "app" { file := "./app.conf" } }, metadata := none }

open IncludeTree in
theorem sharedLoader_includes (bare : shared.doc.includes = []) :
    Includes (sharedLoader shared) ["/app/compose.yaml"] "/app"
      [("shared.yaml", [])] [.node "/app/shared.yaml" [] shared []] := by
  rw [Includes]
  have fresh : "/app/shared.yaml" ∉ ["/app/compose.yaml"] := by decide +kernel
  refine ⟨rfl, rfl, fresh, ?_, by rw [Includes]; trivial⟩
  rw [Connected, bare]
  refine ⟨rfl, ?_⟩
  change Includes _ _ _ [] []
  rw [Includes]
  trivial

end Cornus.Compose
