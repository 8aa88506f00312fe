import Cornus.Compose.Merge

/-!
# Variables from `env_file` and from `environment`

Each file's `env_file` variables are folded into its inline environment while
the file is parsed, and the files are merged afterwards.  A later file's
`env_file` variable then replaces an earlier file's inline value, and a tag on a
later file's `environment` drops the `env_file` variables before it.
-/

namespace Cornus.Compose

open YamlMeta List Option Dict

/-- A file is missing, or cannot be read or parsed. -/
inductive EnvFileError where
  | missing
  | failed (text : String)
  deriving DecidableEq

/-- The variables of the file at a path, taken from the Compose file's
directory. -/
abbrev EnvFiles := String → Except EnvFileError (Dict String)

/-- The variables of the listed files; a missing one may be skipped. -/
def envFileVars (files : EnvFiles) :
    List EnvFileRef → Dict String → Except EnvFileError (Dict String)
  | [], merged => .ok merged
  | ref :: rest, merged =>
    match files ref.path with
    | .ok vars => envFileVars files rest (merged.overlay vars)
    | .error .missing =>
      if ref.required then .error .missing else envFileVars files rest merged
    | .error err => .error err

/-- Inline entries win over those of the files. -/
def applyEnvFiles (files : EnvFiles) (svc : Service) : Except EnvFileError Service :=
  if svc.envFile = [] then .ok svc
  else
    match envFileVars files svc.envFile ∅ with
    | .error err => .error err
    | .ok merged =>
      .ok { svc with environment := merged.overlay svc.environment }

/-- A Compose file, by what it says of one service. -/
structure ComposeFile where
  metadata : Option YamlMeta
  doc : Service
  envFiles : EnvFiles

/-- The merge loop of `LoadDocumentWithOptions`, for a service that an earlier
file defines. -/
def loadOnto (base : Service) : List ComposeFile → Except EnvFileError Service
  | [] => .ok base
  | file :: rest =>
    match applyEnvFiles file.envFiles file.doc with
    | .error err => .error err
    | .ok svc => loadOnto (mergeService file.metadata base svc) rest

variable (first : ComposeFile) (rest : List ComposeFile)

/-- A service of a list of files; the first is taken as it is parsed. -/
def loadService : Except EnvFileError Service :=
  match applyEnvFiles first.envFiles first.doc with
  | .error err => .error err
  | .ok svc => loadOnto svc rest

namespace ComposeFile

variable (file : ComposeFile)

/-- The entries under `environment`. -/
def inline : Dict String :=
  file.doc.environment

/-- The variables of the file's `env_file`s. -/
def vars : Dict String :=
  (envFileVars file.envFiles file.doc.envFile ∅).toOption.getD ∅

/-- The environment as the file is parsed. -/
def parsed : Dict String :=
  file.vars.overlay file.inline

/-- The file's `environment` is tagged `!reset`. -/
def resets : Bool :=
  cleared (key file.metadata "environment")

/-- The file's `environment` is tagged `!override`. -/
def overrides : Bool :=
  replaced (key file.metadata "environment")

end ComposeFile

/-- One mapping of every file, folded with the tags of `environment`. -/
def foldFiles (field : ComposeFile → Dict String) (first : ComposeFile)
    (rest : List ComposeFile) : Dict String :=
  rest.foldl (fun base file =>
    mergeMapping file.metadata "environment" base (field file)) (field first)

/-- The `env_file` variables of all files, later ones over earlier ones.  A tag on
`environment` says nothing about them. -/
def foldVars : Dict String :=
  rest.foldl (fun base file => base.overlay file.vars) first.vars

/-- All `env_file` variables, then all inline entries over them. -/
def inlineLast : Dict String :=
  (foldVars first rest).overlay (foldFiles ComposeFile.inline first rest)

/-- Going back from the last file, here the first of the list.  A file that resets
its environment has no `env_file` variable of the name before it or in it.  Else it
gives the variable inline, or from an `env_file` and the inline entries before it,
which an `!override` drops, give no other value; or it leaves the variable to the
files before it, of which an `!override` must find no `env_file` variable. -/
def Undemoted (first : ComposeFile) (name : String) : List ComposeFile → Prop
  | [] => True
  | file :: earlier =>
    if file.resets then (foldVars first (earlier.reverse ++ [file])).lookup name = none
    else (file.inline.lookup name).isSome = true ∨
      match file.vars.lookup name with
      | some value => file.overrides = true ∨ ∀ own,
          (foldFiles ComposeFile.inline first earlier.reverse).lookup name = some own → own = value
      | none =>
        if file.overrides then (foldVars first earlier.reverse).lookup name = none
        else Undemoted first name earlier

theorem applyEnvFiles_ok {file : ComposeFile} {svc : Service}
    (parsed : applyEnvFiles file.envFiles file.doc = .ok svc) : svc.environment = file.parsed := by
  rw [applyEnvFiles] at parsed
  split at parsed
  · rename_i none_
    cases parsed
    rw [ComposeFile.parsed, ComposeFile.vars, none_]
    exact (AList.union_empty).symm
  · split at parsed <;> cases parsed
    rename_i merged read
    rw [ComposeFile.parsed, ComposeFile.vars, read]
    rfl

theorem loadService_ok {first : ComposeFile} {rest : List ComposeFile}
    (loaded : loadService first rest = .ok svc) :
    svc.environment = foldFiles ComposeFile.parsed first rest := by
  rw [loadService] at loaded
  split at loaded
  · cases loaded
  rename_i base parsed
  rw [foldFiles, ← applyEnvFiles_ok parsed]
  clear parsed
  induction rest generalizing base with
  | nil =>
    cases loaded
    rfl
  | cons file rest ih =>
    rw [loadOnto] at loaded
    split at loaded
    · cases loaded
    rename_i next read
    rw [ih _ loaded, foldl_cons, ← applyEnvFiles_ok read]
    rfl

section Fold

variable {first file : ComposeFile} {rest : List ComposeFile} {name : String}

theorem lookup_foldFiles_concat (field : ComposeFile → Dict String) :
    (foldFiles field first (rest ++ [file])).lookup name =
      if file.resets then none
      else ((field file).lookup name).or
        (if file.overrides then none else (foldFiles field first rest).lookup name) := by
  rw [foldFiles, foldl_append, foldl_cons, foldl_nil, mergeMapping]
  change (if file.resets then ∅ else if file.overrides then _ else _ : Dict String).lookup name = _
  split
  · rfl
  split
  · rw [or_none]
  · rw [lookup_overlay]
    rfl

theorem lookup_foldVars_concat : (foldVars first (rest ++ [file])).lookup name =
    (file.vars.lookup name).or ((foldVars first rest).lookup name) := by
  rw [foldVars, foldl_append, foldl_cons, foldl_nil, lookup_overlay]
  rfl

end Fold

/-- A file with one inline variable and the variables of one `env_file`. -/
def oneVariable (inline vars : Dict String) : ComposeFile where
  metadata := none
  doc :=
    { environment := inline, envFile := [⟨"vars.env", true⟩] }
  envFiles _ := .ok vars

end Cornus.Compose
