import Cornus.Storage.CatalogWatch

/-!
# What a catalog shows

After a put has returned its repository is listed until a manifest is deleted
from it; after the delete of its last manifest has returned it is not listed
until one is put.
-/

namespace Cornus.Storage

open AList Backend

open Lib List Option

section Facts

variable {repo other : String}

theorem sanitizeRepo_of_sameRepo (same : sameRepo other repo = true) :
    sanitizeRepo other = sanitizeRepo repo :=
  eq_of_beq same

theorem manifestsDir_of_sameRepo (same : sameRepo other repo = true) :
    manifestsDir other = manifestsDir repo := by
  rw [manifestsDir, manifestsDir, sanitizeRepo_of_sameRepo same]

theorem manifestKey_eq_concat (repo : String) (digest : HexDigest) :
    manifestKey repo digest.hex = manifestsDir repo ++ [digest.hex] := by
  rw [manifestKey_parts repo digest.plain, manifestsDir_eq, append_assoc]
  rfl

theorem sameRepo_of_parts (same : repoParts other = repoParts repo) : sameRepo other repo = true :=
  beq_iff_eq.mpr (congrArg ("/".intercalate ·) same)

theorem sameRepo_of_manifestsDir (same : manifestsDir other = manifestsDir repo) :
    sameRepo other repo = true := by
  apply sameRepo_of_parts
  rw [manifestsDir_eq, manifestsDir_eq, append_cancel_right_eq] at same
  exact (List.cons.inj same).2

variable {name : String} {dir : Key}

theorem sameRepo_of_manifestKey {digest : HexDigest}
    (same : manifestKey other digest.hex = manifestsDir repo ++ [name]) :
    sameRepo other repo = true := by
  rw [manifestKey_eq_concat] at same
  exact sameRepo_of_manifestsDir (append_inj' same rfl).1

theorem mem_visit (stored : manifestsDir repo ++ [name] ∈ objects)
    (ahead : dir <+: manifestsDir repo) : sanitizeRepo repo ∈ repoAt objects dir ∨
      ∃ below ∈ subdirs objects dir, below <+: manifestsDir repo := by
  obtain ⟨rest, whole⟩ := ahead
  cases rest with
  | nil =>
    left
    rw [append_nil] at whole
    rw [← whole] at stored
    have files := ne_nil_of_mem (mem_files.mpr stored)
    have last : dir.getLast? = some "manifests" := by
      rw [whole, manifestsDir_eq]
      exact getLast?_concat
    rw [repoAt, if_pos ⟨last, files⟩, whole, manifestsDir_eq, repoName_markers]
    exact mem_singleton_self _
  | cons next rest =>
    right
    refine ⟨dir ++ [next], ?_, rest, ?_⟩
    · apply mem_map_of_mem (f := fun name => dir ++ [name])
      rw [mem_dirs]
      refine ⟨rest ++ [name], by simp, ?_⟩
      rw [← whole, append_assoc, cons_append] at stored
      exact stored
    · rw [← whole, append_assoc]
      rfl

theorem not_mem_repoAt (shaped : Shaped objects) (unmarked : Unmarked repo objects)
    (under : dir.head? = some "repos") : sanitizeRepo repo ∉ repoAt objects dir := by
  intro mem
  unfold repoAt at mem
  split at mem
  · rename_i holds
    obtain ⟨name, file⟩ := exists_mem_of_ne_nil _ holds.2
    have stored := mem_files.mp file
    have first : (dir ++ [name]).head? = some "repos" := by
      rw [head?_append, under]
      rfl
    obtain ⟨owner, kind, last, same⟩ := shaped _ stored first
    have markers : dir = manifestsDir owner := by
      rw [show "repos" :: repoParts owner ++ [kind, last] =
        ("repos" :: repoParts owner ++ [kind]) ++ [last] by simp] at same
      have whole := (append_inj' same rfl).1
      have named := holds.1
      rw [whole, getLast?_concat] at named
      rw [whole, manifestsDir_eq, Option.some.inj named]
    have listed := mem_singleton.mp mem
    rw [markers, manifestsDir_eq, repoName_markers] at listed
    apply unmarked name
    rw [← manifestsDir_of_sameRepo (beq_iff_eq.mpr listed.symm), ← markers]
    exact stored
  · cases mem

end Facts

section Put

variable (repo : String) (digest : HexDigest)

def HasMarker (objects : Objects) : Prop :=
  manifestsDir repo ++ [digest.hex] ∈ objects

/-- A walk that has found the repository or will come to its marker. -/
def Finds (dirs : List Key) (repos : List String) : Prop :=
  sanitizeRepo repo ∈ repos ∨ ∃ dir ∈ dirs, dir <+: manifestsDir repo

theorem finds_visit {repos : List String} (marked : HasMarker repo digest objects)
    (finds : Finds repo (dir :: dirs) repos) :
    Finds repo (subdirs objects dir ++ dirs) (repos ++ repoAt objects dir) := by
  rcases finds with found | ⟨ahead, among, leads⟩
  · exact .inl (mem_append_left _ found)
  rcases mem_cons.mp among with rfl | later
  · rcases mem_visit marked leads with here | ⟨below, mem, leads⟩
    · exact .inl (mem_append_right _ here)
    · exact .inr ⟨below, mem_append_left _ mem, leads⟩
  · exact .inr ⟨ahead, mem_append_right _ later, leads⟩

variable {catalog next : Catalog} {caller after : Caller}

theorem willDelete_act (calm : caller.willDelete repo = false)
    (acted : caller.act catalog = some (next, after)) : after.willDelete repo = false := by
  rcases act_store acted with ⟨_, _, _, _, rfl, _⟩ | ⟨_, _, _, rfl, _⟩ | ⟨_, _, _, inherited⟩
  · rfl
  · rfl
  · rw [← Bool.not_eq_true] at calm ⊢
    exact fun will => calm (inherited repo will)

theorem hasMarker_act (calm : caller.willDelete repo = false)
    (acted : caller.act catalog = some (next, after))
    (marked : HasMarker repo digest catalog.objects) : HasMarker repo digest next.objects := by
  rcases act_store acted with ⟨other, written, _, _, _, stored⟩ |
    ⟨other, removed, rfl, _, rest⟩ | ⟨same, _⟩
  · rw [HasMarker, stored]
    exact (mem_insert _).mpr (.inr marked)
  · rw [HasMarker, rest]
    apply mem_erase.mpr
    refine ⟨?_, marked⟩
    intro same
    have one : sameRepo other repo = true := sameRepo_of_manifestKey same.symm
    rw [Caller.willDelete, one] at calm
    cases calm
  · rw [HasMarker, same]
    exact marked

theorem hasMarker_of_written (same : sameRepo other repo = true)
    (acted : caller.act catalog = some (next, .written other digest)) :
    HasMarker repo digest next.objects := by
  rcases act_store acted with ⟨writer, written, _, _, made, stored⟩ |
    ⟨_, _, _, impossible, _⟩ | ⟨_, impossible, _⟩
  · cases made
    rw [HasMarker, stored, ← manifestsDir_of_sameRepo same, ← manifestKey_eq_concat]
    exact (mem_insert _).mpr (.inl rfl)
  · cases impossible
  · cases impossible

def putWatch : Watch where
  World := HasMarker repo digest
  Good := Finds repo
  Accept names := sanitizeRepo repo ∈ names
  Calm caller := caller.willDelete repo = false
  Changed caller :=
    ∃ other, caller = .written other digest ∧ sameRepo other repo = true
  Settled caller :=
    ∃ other, caller = .put other digest ∧ sameRepo other repo = true
  start := by
    refine .inr ⟨["repos"], mem_singleton_self _, ?_⟩
    rw [manifestsDir_eq]
    exact ⟨_, rfl⟩
  visit := finds_visit repo digest
  finish := by
    intro repos finds
    rcases finds with found | ⟨_, among, _⟩
    · exact mem_sortStrings.mpr found
    · cases among
  idle := rfl
  calm := willDelete_act repo
  keeps := hasMarker_act repo digest
  changes := by
    intro catalog next caller after _ acted changed
    obtain ⟨other, rfl, same⟩ := changed
    exact hasMarker_of_written repo digest same acted
  changed := by
    intro caller either
    rcases either with ⟨_, rfl, _⟩ | ⟨_, rfl, _⟩ <;> rfl
  settles := by
    intro catalog next caller after acted settled
    obtain ⟨other, rfl, same⟩ := settled
    obtain ⟨rfl, dropped⟩ := (act_returns acted).1 other digest rfl
    exact ⟨⟨other, rfl, same⟩, dropped⟩

end Put

section Delete

variable (repo : String)

/-- A walk below `repos` that has not come upon the repository. -/
def Misses (dirs : List Key) (repos : List String) : Prop :=
  sanitizeRepo repo ∉ repos ∧ ∀ dir ∈ dirs, dir.head? = some "repos"

theorem misses_visit {repos : List String} (world : Shaped objects ∧ Unmarked repo objects)
    (misses : Misses repo (dir :: dirs) repos) :
    Misses repo (subdirs objects dir ++ dirs) (repos ++ repoAt objects dir) := by
  obtain ⟨absent, under⟩ := misses
  have first := under dir mem_cons_self
  constructor
  · intro mem
    rcases mem_append.mp mem with found | here
    · exact absent found
    · exact not_mem_repoAt world.1 world.2 first here
  · intro below among
    rcases mem_append.mp among with child | later
    · obtain ⟨name, _, rfl⟩ := mem_map.mp child
      rw [head?_append, first]
      rfl
    · exact under below (mem_cons_of_mem _ later)

variable {catalog next : Catalog} {caller after : Caller}

theorem willPut_act (acted : caller.act catalog = some (next, after)) :
    after.willPut repo = false := by
  rcases act_store acted with ⟨_, _, _, _, rfl, _⟩ | ⟨_, _, _, rfl, _⟩ | ⟨_, _, fresh, _⟩
  · rfl
  · rfl
  · exact fresh repo

theorem unmarked_act (calm : caller.willPut repo = false)
    (acted : caller.act catalog = some (next, after)) (unmarked : Unmarked repo catalog.objects) :
    Unmarked repo next.objects := by
  intro name mem
  rcases act_store acted with ⟨other, written, _, rfl, _, stored⟩ |
    ⟨other, removed, _, _, rest⟩ | ⟨same, _⟩
  · rw [stored] at mem
    rcases (mem_insert _).mp mem with same | older
    · have one : sameRepo other repo = true := sameRepo_of_manifestKey same.symm
      rw [Caller.willPut, one] at calm
      cases calm
    · exact unmarked name older
  · rw [rest] at mem
    exact unmarked name (mem_erase.mp mem).2
  · rw [same] at mem
    exact unmarked name mem

theorem unmarked_of_removed (same : sameRepo other repo = true)
    (acted : caller.act catalog = some (next, .removed other true)) :
    Unmarked repo next.objects := by
  rcases act_store acted with ⟨_, _, _, _, impossible, _⟩ |
    ⟨owner, digest, _, made, _⟩ | ⟨_, impossible, _⟩
  · cases impossible
  · intro name mem
    have empty : (manifestHexes next.objects other).isEmpty = true := by
      injection made with owned last
      rw [owned]
      exact last.symm
    rw [← manifestsDir_of_sameRepo same] at mem
    have listed : name ∈ manifestHexes next.objects other := mem_files.mpr mem
    rw [isEmpty_iff.mp empty] at listed
    cases listed
  · cases impossible

/-- After the delete of its last manifest the repository is not listed. -/
def deleteWatch : Watch where
  World objects := Shaped objects ∧ Unmarked repo objects
  Good := Misses repo
  Accept names := sanitizeRepo repo ∉ names
  Calm caller := caller.willPut repo = false
  Changed caller :=
    ∃ other, caller = .removed other true ∧ sameRepo other repo = true
  Settled caller :=
    ∃ other, caller = .deleted other true ∧ sameRepo other repo = true
  start := by
    refine ⟨not_mem_nil, ?_⟩
    intro dir among
    rw [mem_singleton.mp among]
    rfl
  visit := misses_visit repo
  finish := by
    intro repos misses member
    exact misses.1 (mem_sortStrings.mp member)
  idle := rfl
  calm _ acted := willPut_act repo acted
  keeps calm acted world :=
    ⟨shaped_act acted world.1, unmarked_act repo calm acted world.2⟩
  changes := by
    intro catalog next caller after shaped acted changed
    obtain ⟨other, rfl, same⟩ := changed
    exact ⟨shaped_act acted shaped, unmarked_of_removed repo same acted⟩
  changed := by
    intro caller either
    rcases either with ⟨_, rfl, _⟩ | ⟨_, rfl, _⟩ <;> rfl
  settles := by
    intro catalog next caller after acted settled
    obtain ⟨other, rfl, same⟩ := settled
    obtain ⟨rfl, dropped⟩ := (act_returns acted).2 other true rfl
    exact ⟨⟨other, rfl, same⟩, dropped⟩

end Delete

variable {repo : String} {turns : List Turn}

theorem allows_of_beginsDelete (quiet : ∀ turn ∈ turns, turn.beginsDelete repo = false) :
    ∀ turn ∈ turns, (putWatch repo digest).Allows turn := by
  intro turn mem caller begins
  cases turn with
  | put other written mediaType | repos =>
    cases begins
    rfl
  | delete other text =>
    cases begins
    unfold beginDelete
    split
    · rfl
    · exact quiet _ mem
  | act index => cases begins

theorem allows_of_beginsPut (quiet : ∀ turn ∈ turns, turn.beginsPut repo = false) :
    ∀ turn ∈ turns, (deleteWatch repo).Allows turn := by
  intro turn mem caller begins
  cases turn with
  | put other written mediaType =>
    cases begins
    exact quiet _ mem
  | delete other text =>
    cases begins
    unfold beginDelete
    split <;> rfl
  | repos =>
    cases begins
    rfl
  | act index => cases begins

/-- The cached catalog is fresh.  A `Repos` that begins after a `PutManifest` to
a repository has returned lists the repository, if from before that put wrote its
marker no `DeleteManifest` of the repository is under way or begins.  A `Repos`
that begins after the `DeleteManifest` that removed the last marker of a
repository has returned does not list it, if from before that removal no
`PutManifest` to the repository is under way or begins. -/
theorem repos_fresh (repo : String) {objects : Objects}
    (shaped : Shaped objects) {before since later : List Turn}
    {early start final : Backend} {index : Nat} {writer : Caller} {names : List String}
    (begun : run Backend.step ⟨{ objects }, []⟩ before = some early)
    (ahead : ∀ caller, early.callers[index]? = some caller → caller.changed = false)
    (served : run Backend.step early since = some start)
    (returned : start.callers[index]? = some writer)
    (asked : run Backend.step start (.repos :: later) = some final)
    (answered : final.callers[start.callers.length]? = some (.answered names)) :
    (writer.hasPut repo = true → (∀ caller ∈ early.callers, caller.willDelete repo = false) →
      (∀ turn ∈ since ++ later, turn.beginsDelete repo = false) → sanitizeRepo repo ∈ names) ∧
    (writer.hasEmptied repo = true → (∀ caller ∈ early.callers, caller.willPut repo = false) →
      (∀ turn ∈ since ++ later, turn.beginsPut repo = false) → sanitizeRepo repo ∉ names) := by
  have sound : Sound early := by
    have along : Along step (fun _ _ => True) ⟨{ objects }, []⟩ before :=
      Along.of_events fun _ _ => trivial
    apply run_invariant _ _ along begun
    · intro backend turn next sound _ taken
      exact sound_step sound taken
    · exact ⟨shaped, fun caller member => nomatch member⟩
  constructor
  · intro put calm quiet
    obtain ⟨first, rest⟩ := forall_mem_append.mp quiet
    cases writer with
    | put other digest =>
      exact (putWatch repo digest).accepts sound calm ahead (allows_of_beginsDelete first)
        (allows_of_beginsDelete rest) served returned ⟨other, rfl, put⟩ asked answered
    | _ => cases put
  · intro emptied calm quiet
    obtain ⟨first, rest⟩ := forall_mem_append.mp quiet
    cases writer with
    | deleted other last =>
      obtain ⟨same, rfl⟩ := Bool.and_eq_true_iff.mp emptied
      exact (deleteWatch repo).accepts sound calm ahead (allows_of_beginsPut first)
        (allows_of_beginsPut rest) served returned ⟨other, rfl, same⟩ asked answered
    | _ => cases emptied

def emptyDigest : HexDigest :=
  ⟨"e3b0c44298fc1c149afbf4c8996fb92427ae41e4649b934ca495991b7852b855",
    by decide +kernel⟩

/-- A walk lists the tree before the put writes its marker, and ends after the
put has returned. -/
def overtakenWalk : List Turn :=
  [.repos, .act 0, .put "a" emptyDigest "", .act 0, .act 1, .act 1, .act 0]

def listing : List Turn :=
  .repos :: List.replicate 5 (.act 2)

/-- The list is cached; then the manifest is deleted. -/
def emptying : List Turn :=
  listing ++ .delete "a" (digestOf emptyDigest.hex) :: List.replicate 3 (.act 3)

/-- The next catalog shows the put although an older walk has missed it, and the
one after the delete does not show it although the list with it was cached. -/
theorem overtakenWalk_fresh : ∃ afterPut, run Backend.step {} overtakenWalk = some afterPut ∧
      (∃ final names, run Backend.step afterPut listing = some final ∧
        final.callers[2]? = some (.answered names) ∧ sanitizeRepo "a" ∈ names) ∧
      ∃ afterDelete final names, run Backend.step afterPut emptying = some afterDelete ∧
        run Backend.step afterDelete (.repos :: List.replicate 3 (.act 4)) = some final ∧
        final.callers[4]? = some (.answered names) ∧ sanitizeRepo "a" ∉ names := by
  have shaped : Shaped ∅ := fun key stored => absurd stored (notMem_empty key)
  have runs : ((run step {} overtakenWalk).map (·.callers) =
        some [.answered [], .put "a" emptyDigest]) ∧
      ((run step {} overtakenWalk).bind (run step · listing)).map
          (·.callers[2]?) = some (some (.answered ["a"])) ∧
      ((run step {} overtakenWalk).bind (run step · emptying)).map (·.callers) =
        some [.answered [], .put "a" emptyDigest, .answered ["a"], .deleted "a" true] ∧
      (((run step {} overtakenWalk).bind (run step · emptying)).bind
          (run step · (.repos :: List.replicate 3 (.act 4)))).map
            (·.callers[4]?) = some (some (.answered [])) := by
    decide +kernel
  obtain ⟨puts, lists, deletes, omits⟩ := runs
  obtain ⟨afterPut, served, callers⟩ := map_eq_some_iff.mp puts
  rw [served, bind_some] at lists deletes omits
  obtain ⟨listed, asked, answered⟩ := map_eq_some_iff.mp lists
  obtain ⟨afterDelete, deleted, later⟩ := map_eq_some_iff.mp deletes
  rw [deleted, bind_some] at omits
  obtain ⟨final, asks, omitted⟩ := map_eq_some_iff.mp omits
  refine ⟨afterPut, served, ⟨listed, ["a"], asked, answered, ?_⟩,
    afterDelete, final, [], deleted, asks, omitted, ?_⟩
  · have begun : run step ⟨{ objects := ∅ }, []⟩ [] = some {} := rfl
    have ahead : ∀ caller, ([] : List Caller)[1]? = some caller → caller.changed = false := nofun
    have returned : afterPut.callers[1]? = some (.put "a" emptyDigest) := by
      rw [callers]
      rfl
    have fresh := repos_fresh "a" shaped begun ahead served returned asked
      (by rw [callers]; exact answered)
    exact fresh.1 rfl (fun _ member => nomatch member) (by decide +kernel)
  · have ahead : ∀ caller, afterPut.callers[3]? = some caller → caller.changed = false := by
      intro caller there
      rw [callers] at there
      cases there
    have returned : afterDelete.callers[3]? = some (.deleted "a" true) := by
      rw [later]
      rfl
    have fresh := repos_fresh "a" shaped served ahead deleted returned asks
      (by rw [later]; exact omitted)
    exact fresh.2 rfl (by rw [callers]; decide) (by decide +kernel)

end Cornus.Storage
