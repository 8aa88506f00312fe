import Cornus.Storage.Catalog

/-!
# Lists that show a fact

A write settles a fact about the tree: that a marker is there, or that a
repository has none.  From the invalidation of that write on, as long as no call
undoes the fact, every list that is or may become the cached one was walked while
the fact held, since an older walk has an older generation.  A `Repos` that
starts later therefore shows the fact, from the cache or from its own walk.

`Watch` collects what the argument uses of such a fact.
-/

namespace Cornus.Storage

open Nat Caller Backend

open Lib Option

def Caller.wrote : Caller → Bool
  | .written _ _ | .removed _ _ => true
  | _ => false

variable {catalog next : Catalog} {caller after : Caller}

section

variable (acted : caller.act catalog = some (next, after))
include acted

/-- What a step does to the store: a put inserts its marker, a delete erases its
own, and no other step changes an object. -/
theorem act_store :
    (∃ repo digest mediaType, caller = .putting repo digest mediaType ∧
      after = .written repo digest ∧ next.objects =
        catalog.objects.insert (manifestKey repo digest.hex) mediaType) ∨
    (∃ repo digest, caller = .found repo digest ∧
      after = .removed repo (manifestHexes next.objects repo).isEmpty ∧
      next.objects = catalog.objects.erase (manifestKey repo digest.hex)) ∨
    (next.objects = catalog.objects ∧ after.wrote = false ∧ (∀ repo, after.willPut repo = false) ∧
      ∀ repo, after.willDelete repo = true → caller.willDelete repo = true) := by
  unfold act at acted
  split at acted
  case h_1 repo digest mediaType =>
      cases acted
      exact .inl ⟨repo, digest, mediaType, rfl, rfl, rfl⟩
  case h_4 =>
      split at acted <;> cases acted
      · exact .inr (.inr ⟨rfl, rfl, fun _ => rfl, fun _ => id⟩)
      · exact .inr (.inr ⟨rfl, rfl, fun _ => rfl, nofun⟩)
  case h_5 repo digest =>
      cases acted
      exact .inr (.inl ⟨repo, digest, rfl, rfl, rfl⟩)
  case h_9 =>
      split at acted <;> cases acted <;> exact .inr (.inr ⟨rfl, rfl, fun _ => rfl, nofun⟩)
  case h_11 =>
      simp only at acted
      split at acted <;> cases acted <;> exact .inr (.inr ⟨rfl, rfl, fun _ => rfl, nofun⟩)
  all_goals
    cases acted
    try exact .inr (.inr ⟨rfl, rfl, fun _ => rfl, nofun⟩)

theorem shaped_act (shaped : Shaped catalog.objects) : Shaped next.objects := by
  rcases act_store acted with ⟨repo, digest, mediaType, _, _, stored⟩ |
    ⟨repo, digest, _, _, rest⟩ | ⟨same, _⟩
  · rw [stored]
    intro key mem under
    rcases (AList.mem_insert _).mp mem with own | older
    · exact ⟨repo, "manifests", digest.hex, own.trans (manifestKey_parts repo digest.plain)⟩
    · exact shaped key older under
  · rw [rest]
    intro key mem under
    exact shaped key (AList.mem_erase.mp mem).2 under
  · rw [same]
    exact shaped

theorem act_returns :
    (∀ repo digest, after = .put repo digest →
      caller = .written repo digest ∧ next = catalog.invalidate) ∧
    ∀ repo last, after = .deleted repo last →
      caller = .removed repo last ∧ next = catalog.invalidate := by
  unfold act at acted
  split at acted
  case h_2 repo digest =>
      cases acted
      refine ⟨fun _ _ same => ?_, nofun⟩
      cases same
      exact ⟨rfl, rfl⟩
  case h_6 repo last =>
      cases acted
      refine ⟨nofun, fun _ _ same => ?_⟩
      cases same
      exact ⟨rfl, rfl⟩
  case h_4 => split at acted <;> cases acted <;> exact ⟨nofun, nofun⟩
  case h_9 => split at acted <;> cases acted <;> exact ⟨nofun, nofun⟩
  case h_11 =>
      simp only at acted
      split at acted <;> cases acted <;> exact ⟨nofun, nofun⟩
  all_goals
    cases acted
    try exact ⟨nofun, nofun⟩

def Caller.Resting : Caller → Prop
  | .walking _ _ _ => False
  | _ => True

/-- What a step leaves of the cache: a write drops it, a walk that ends with the
generation it began with replaces it. -/
theorem act_cases :
    (next = catalog.invalidate ∧ after.Resting) ∨
    (next.gen = catalog.gen ∧ next.list = catalog.list ∧
      (after.Resting ∨ after = .walking catalog.gen [["repos"]] [] ∨
        ∃ gen dir dirs repos, caller = .walking gen (dir :: dirs) repos ∧
          after = .walking gen (subdirs catalog.objects dir ++ dirs)
            (repos ++ repoAt catalog.objects dir))) ∨
    ∃ repos, caller = .walking catalog.gen [] repos ∧
      next.gen = catalog.gen ∧ next.list = some (sortStrings repos) ∧
      after = .answered (sortStrings repos) := by
  unfold act at acted
  split at acted
  case h_1 =>
      cases acted
      exact .inr (.inl ⟨rfl, rfl, .inl trivial⟩)
  case h_2 =>
      cases acted
      exact .inl ⟨rfl, trivial⟩
  case h_4 =>
      split at acted <;> cases acted <;> exact .inr (.inl ⟨rfl, rfl, .inl trivial⟩)
  case h_5 =>
      cases acted
      exact .inr (.inl ⟨rfl, rfl, .inl trivial⟩)
  case h_6 =>
      cases acted
      exact .inl ⟨rfl, trivial⟩
  case h_9 =>
      split at acted <;> cases acted
      · exact .inr (.inl ⟨rfl, rfl, .inl trivial⟩)
      · exact .inr (.inl ⟨rfl, rfl, .inr (.inl rfl)⟩)
  case h_10 gen dir dirs repos =>
      cases acted
      exact .inr (.inl ⟨rfl, rfl, .inr (.inr ⟨gen, dir, dirs, repos, rfl, rfl⟩)⟩)
  case h_11 gen repos =>
      simp only at acted
      split at acted
      · rename_i same
        cases acted
        exact .inr (.inr ⟨repos, by rw [same], rfl, rfl, rfl⟩)
      · cases acted
        exact .inr (.inl ⟨rfl, rfl, .inl trivial⟩)
  all_goals cases acted

end

def Caller.ReadBy (gen : Nat) : Caller → Prop
  | .walking read _ _ => read ≤ gen
  | _ => True

theorem Caller.Resting.readBy (resting : caller.Resting) (gen : Nat) : caller.ReadBy gen := by
  cases caller
  case walking => exact resting.elim
  all_goals trivial

theorem Caller.ReadBy.mono (read : caller.ReadBy gen) (upward : gen ≤ later) :
    caller.ReadBy later := by
  cases caller
  case walking => exact le_trans read upward
  all_goals trivial

variable {backend : Backend} {index : Nat}

/-- The shape of the store and the past of the walks, in every state. -/
structure Sound (backend : Backend) : Prop where
  shaped : Shaped backend.catalog.objects
  read : ∀ caller ∈ backend.callers, caller.ReadBy backend.catalog.gen

section

variable (sound : Sound backend) (there : backend.callers[index]? = some caller)
  (acted : caller.act backend.catalog = some (next, after))
include sound there acted

theorem readBy_act : ∀ caller ∈ backend.callers.set index after, caller.ReadBy next.gen := by
  intro other among
  have upward : backend.catalog.gen ≤ next.gen := by
    rcases act_cases acted with ⟨rfl, _⟩ | ⟨same, _⟩ | ⟨_, _, same, _⟩
    · exact le_succ _
    · exact same.ge
    · exact same.ge
  rcases List.mem_or_eq_of_mem_set among with old | rfl
  · exact (sound.read other old).mono upward
  rcases act_cases acted with ⟨_, resting⟩ | ⟨_, _, resting | begun | walk⟩ | ⟨_, _, _, _, rfl⟩
  · exact resting.readBy _
  · exact resting.readBy _
  · rw [begun]
    exact upward
  · obtain ⟨gen, dir, dirs, repos, rfl, rfl⟩ := walk
    have before : gen ≤ backend.catalog.gen := sound.read _ (List.mem_of_getElem? there)
    exact le_trans before upward
  · trivial

theorem sound_act : Sound ⟨next, backend.callers.set index after⟩ :=
  ⟨shaped_act acted sound.shaped, readBy_act sound there acted⟩

end

variable {turn : Turn}

/-- A turn begins a call or moves one on. -/
theorem step_cases {next : Backend} (taken : backend.step turn = some next) :
    (∃ caller, turn.begins = some caller ∧ next = ⟨backend.catalog, backend.callers ++ [caller]⟩) ∨
    ∃ index caller catalog after, turn = .act index ∧ backend.callers[index]? = some caller ∧
      caller.act backend.catalog = some (catalog, after) ∧
      next = ⟨catalog, backend.callers.set index after⟩ := by
  cases turn with
  | put repo digest mediaType | delete repo digest | repos =>
    cases taken
    exact .inl ⟨_, rfl, rfl⟩
  | act index =>
    simp only [step, bind_eq_bind, bind_eq_some_iff, pure_def, some.injEq] at taken
    obtain ⟨caller, there, ⟨catalog, after⟩, acted, same⟩ := taken
    exact .inr ⟨index, caller, catalog, after, rfl, there, acted, same.symm⟩

theorem resting_of_begins (begins : turn.begins = some caller) : caller.Resting := by
  cases turn with
  | put repo digest mediaType | repos =>
    cases begins
    trivial
  | delete repo digest =>
    cases begins
    unfold beginDelete
    split <;> trivial
  | act index => cases begins

theorem not_changed_of_begins (begins : turn.begins = some caller) : caller.changed = false := by
  cases turn with
  | put repo digest mediaType | repos =>
    cases begins
    rfl
  | delete repo digest =>
    cases begins
    unfold beginDelete
    split <;> rfl
  | act index => cases begins

theorem sound_step {next : Backend} (sound : Sound backend)
    (taken : backend.step turn = some next) : Sound next := by
  rcases step_cases taken with ⟨caller, begins, rfl⟩ |
    ⟨index, caller, catalog, after, rfl, there, acted, rfl⟩
  · refine ⟨sound.shaped, ?_⟩
    exact List.forall_mem_append.mpr
      ⟨sound.read, List.forall_mem_singleton.mpr ((resting_of_begins begins).readBy _)⟩
  · exact sound_act sound there acted

structure Watch where
  /-- The fact. -/
  World : Objects → Prop
  /-- A walk, by its directories and repositories, that misses nothing. -/
  Good : List Key → List String → Prop
  /-- A list that shows the fact. -/
  Accept : List String → Prop
  /-- A call that does not undo the fact. -/
  Calm : Caller → Prop
  /-- The write has been made. -/
  Changed : Caller → Prop
  /-- The write has returned. -/
  Settled : Caller → Prop
  start : Good [["repos"]] []
  visit : ∀ {objects : Objects} {dir : Key} {dirs : List Key} {repos : List String}, World objects →
    Good (dir :: dirs) repos → Good (subdirs objects dir ++ dirs) (repos ++ repoAt objects dir)
  finish : ∀ {repos : List String}, Good [] repos → Accept (sortStrings repos)
  idle : Calm .asking
  calm : ∀ {catalog next : Catalog} {caller after : Caller}, Calm caller →
    caller.act catalog = some (next, after) → Calm after
  keeps : ∀ {catalog next : Catalog} {caller after : Caller}, Calm caller →
    caller.act catalog = some (next, after) → World catalog.objects → World next.objects
  changes : ∀ {catalog next : Catalog} {caller after : Caller},
    Shaped catalog.objects → caller.act catalog = some (next, after) → Changed after →
    World next.objects
  changed : ∀ {caller : Caller}, Changed caller ∨ Settled caller → caller.changed = true
  settles : ∀ {catalog next : Catalog} {caller after : Caller},
    caller.act catalog = some (next, after) → Settled after →
    Changed caller ∧ next = catalog.invalidate

namespace Watch

variable (watch : Watch)

def Current (gen : Nat) : Caller → Prop
  | .walking read dirs repos => read = gen → watch.Good dirs repos
  | _ => True

def Shows : Caller → Prop
  | .asking => True
  | .walking _ dirs repos => watch.Good dirs repos
  | .answered names => watch.Accept names
  | _ => False

/-- The fact holds and every list that is or may become the cached one shows
it. -/
structure Guarded (backend : Backend) : Prop where
  world : watch.World backend.catalog.objects
  list : ∀ names, backend.catalog.list = some names → watch.Accept names
  walks : ∀ caller ∈ backend.callers, watch.Current backend.catalog.gen caller

/-- What holds while the write at `index` is under way. -/
structure Settling (index : Nat) (backend : Backend) : Prop where
  sound : Sound backend
  calm : ∀ caller ∈ backend.callers, watch.Calm caller
  changed : ∀ caller, backend.callers[index]? = some caller →
    watch.Changed caller → watch.World backend.catalog.objects
  settled : ∀ caller, backend.callers[index]? = some caller →
    watch.Settled caller → watch.Guarded backend

theorem current_of_resting (resting : caller.Resting) (gen : Nat) : watch.Current gen caller := by
  cases caller
  case walking => exact resting.elim
  all_goals trivial

theorem current_of_older (read : caller.ReadBy gen) : watch.Current (gen + 1) caller := by
  cases caller
  case walking past dirs repos =>
      intro now
      have before : past ≤ gen := read
      omega
  all_goals trivial

variable {index : Nat}

section

variable {actor : Nat} (acted : caller.act backend.catalog = some (next, after))
include acted

/-- The write that settles the fact drops the cached list, and every walk under
way is older. -/
theorem guarded_of_settled (sound : Sound backend)
    (changed : watch.Changed caller → watch.World backend.catalog.objects)
    (settled : watch.Settled after) :
    watch.Guarded ⟨next, backend.callers.set actor after⟩ := by
  obtain ⟨wrote, rfl⟩ := watch.settles acted settled
  refine ⟨changed wrote, ?_, ?_⟩
  · intro names listed
    cases listed
  intro other among
  rcases List.mem_or_eq_of_mem_set among with old | rfl
  · exact watch.current_of_older (sound.read other old)
  rcases act_cases acted with ⟨_, resting⟩ | ⟨impossible, _⟩ | ⟨_, _, impossible, _⟩
  · exact watch.current_of_resting resting _
  · exact absurd impossible (succ_ne_self _)
  · exact absurd impossible (succ_ne_self _)

variable (there : backend.callers[actor]? = some caller)
include there

theorem guarded_act (guarded : watch.Guarded backend) (sound : Sound backend)
    (calm : watch.Calm caller) : watch.Guarded ⟨next, backend.callers.set actor after⟩ := by
  have own := guarded.walks caller (List.mem_of_getElem? there)
  refine ⟨watch.keeps calm acted guarded.world, ?_, ?_⟩
  · intro names listed
    rcases act_cases acted with ⟨rfl, _⟩ | ⟨_, kept, _⟩ | ⟨repos, rfl, _, published, _⟩
    · cases listed
    · exact guarded.list names (kept ▸ listed)
    rw [published] at listed
    cases listed
    exact watch.finish (own rfl)
  · intro other among
    rcases List.mem_or_eq_of_mem_set among with old | rfl
    · rcases act_cases acted with ⟨rfl, _⟩ | ⟨same, _⟩ | ⟨_, _, same, _⟩
      · exact watch.current_of_older (sound.read other old)
      · rw [same]
        exact guarded.walks other old
      · rw [same]
        exact guarded.walks other old
    · rcases act_cases acted with ⟨_, resting⟩ |
        ⟨same, _, resting | begun | walk⟩ | ⟨_, _, _, _, rfl⟩
      · exact watch.current_of_resting resting _
      · exact watch.current_of_resting resting _
      · rw [begun]
        exact fun _ => watch.start
      · obtain ⟨gen, dir, dirs, repos, rfl, rfl⟩ := walk
        intro now
        exact watch.visit guarded.world (own (now.trans same))
      · trivial

theorem calm_act (calm : ∀ caller ∈ backend.callers, watch.Calm caller) :
    ∀ caller ∈ backend.callers.set actor after, watch.Calm caller := by
  intro other among
  rcases List.mem_or_eq_of_mem_set among with old | rfl
  · exact calm other old
  · exact watch.calm (calm caller (List.mem_of_getElem? there)) acted

theorem settling_act (settling : watch.Settling index backend) :
    watch.Settling index ⟨next, backend.callers.set actor after⟩ := by
  have calm := settling.calm caller (List.mem_of_getElem? there)
  refine ⟨sound_act settling.sound there acted, watch.calm_act acted there settling.calm, ?_, ?_⟩
  · intro other at_ changed
    rw [List.getElem?_set] at at_
    split at at_
    · split at at_ <;> cases at_
      exact watch.changes settling.sound.shaped acted changed
    · exact watch.keeps calm acted (settling.changed other at_ changed)
  · intro other at_ settled
    rw [List.getElem?_set] at at_
    split at at_
    · rename_i same
      split at at_ <;> cases at_
      apply watch.guarded_of_settled acted settling.sound _ settled
      exact settling.changed caller (same ▸ there)
    · exact watch.guarded_act acted there (settling.settled other at_ settled) settling.sound calm

end

def Allows (turn : Turn) : Prop :=
  ∀ caller, turn.begins = some caller → watch.Calm caller

theorem guarded_begins (guarded : watch.Guarded backend) (begins : turn.begins = some caller) :
    watch.Guarded ⟨backend.catalog, backend.callers ++ [caller]⟩ := by
  refine ⟨guarded.world, guarded.list, ?_⟩
  exact List.forall_mem_append.mpr
    ⟨guarded.walks,
      List.forall_mem_singleton.mpr (watch.current_of_resting (resting_of_begins begins) _)⟩

theorem calm_begins (calm : ∀ caller ∈ backend.callers, watch.Calm caller)
    (allowed : watch.Allows turn) (begins : turn.begins = some caller) :
    ∀ other ∈ backend.callers ++ [caller], watch.Calm other := by
  exact List.forall_mem_append.mpr ⟨calm, List.forall_mem_singleton.mpr (allowed caller begins)⟩

theorem settling_step {next : Backend} (settling : watch.Settling index backend)
    (allowed : watch.Allows turn) (taken : backend.step turn = some next) :
    watch.Settling index next := by
  have sound := sound_step settling.sound taken
  rcases step_cases taken with ⟨caller, begins, rfl⟩ |
    ⟨actor, caller, catalog, after, rfl, there, acted, rfl⟩
  · have older : ∀ {other : Caller}, (backend.callers ++ [caller])[index]? = some other →
        other.changed = true → backend.callers[index]? = some other := by
      intro other at_ changed
      rw [List.getElem?_append] at at_
      split at at_
      · exact at_
      cases List.mem_singleton.mp (List.mem_of_getElem? at_)
      rw [not_changed_of_begins begins] at changed
      cases changed
    refine ⟨sound, watch.calm_begins settling.calm allowed begins, ?_, ?_⟩
    · intro other at_ changed
      exact settling.changed other (older at_ (watch.changed (.inl changed))) changed
    · intro other at_ settled
      have guarded := settling.settled other (older at_ (watch.changed (.inr settled))) settled
      exact watch.guarded_begins guarded begins
  · exact watch.settling_act acted there settling

/-- What holds while a `Repos` that began after the write is under way. -/
structure Serving (asker : Nat) (backend : Backend) : Prop where
  sound : Sound backend
  calm : ∀ caller ∈ backend.callers, watch.Calm caller
  guarded : watch.Guarded backend
  shows : ∃ caller, backend.callers[asker]? = some caller ∧ watch.Shows caller

theorem shows_act (guarded : watch.Guarded backend) (shows : watch.Shows caller)
    (acted : caller.act backend.catalog = some (next, after)) : watch.Shows after := by
  cases caller with
  | asking =>
    simp only [act] at acted
    split at acted
    · rename_i list cached
      cases acted
      exact guarded.list list cached
    · cases acted
      exact watch.start
  | walking gen dirs repos =>
    cases dirs with
    | nil =>
      simp only [act] at acted
      split at acted <;> cases acted <;> exact watch.finish shows
    | cons dir dirs =>
      cases acted
      exact watch.visit guarded.world shows
  | answered names => cases acted
  | _ => exact shows.elim

theorem serving_step {next : Backend}
    (serving : watch.Serving asker backend) (allowed : watch.Allows turn)
    (taken : backend.step turn = some next) : watch.Serving asker next := by
  have sound := sound_step serving.sound taken
  obtain ⟨own, at_, shows⟩ := serving.shows
  rcases step_cases taken with ⟨caller, begins, rfl⟩ |
    ⟨actor, caller, catalog, after, rfl, there, acted, rfl⟩
  · refine ⟨sound, watch.calm_begins serving.calm allowed begins,
      watch.guarded_begins serving.guarded begins, own, ?_, shows⟩
    rw [List.getElem?_append_left (List.getElem?_eq_some_iff.mp at_).1]
    exact at_
  · have calm := serving.calm caller (List.mem_of_getElem? there)
    refine ⟨sound, watch.calm_act acted there serving.calm,
      watch.guarded_act acted there serving.guarded serving.sound calm, ?_⟩
    by_cases same : actor = asker
    · subst same
      have inside := (List.getElem?_eq_some_iff.mp at_).1
      refine ⟨after, List.getElem?_set_self inside, ?_⟩
      apply watch.shows_act serving.guarded _ acted
      rw [some.inj (there.symm.trans at_)]
      exact shows
    · exact ⟨own, (List.getElem?_set_ne same).trans at_, shows⟩

/-- A `Repos` that begins after the write has returned shows the fact, as long
as nothing undoes it. -/
theorem accepts {early start : Backend} (sound : Sound early)
    (calm : ∀ caller ∈ early.callers, watch.Calm caller)
    (ahead : ∀ caller, early.callers[index]? = some caller →
      caller.changed = false) (quiet : ∀ turn ∈ since, watch.Allows turn)
    (quietAfter : ∀ turn ∈ later, watch.Allows turn) (served : run step early since = some start)
    (at_ : start.callers[index]? = some writer) (settled : watch.Settled writer)
    (asked : run step start (.repos :: later) = some final)
    (answered : final.callers[start.callers.length]? = some (.answered names)) :
    watch.Accept names := by
  have unchanged : ∀ caller, early.callers[index]? = some caller →
      ¬(watch.Changed caller ∨ watch.Settled caller) := by
    intro caller there settled
    have done := watch.changed settled
    rw [ahead caller there] at done
    cases done
  have settling : watch.Settling index start := by
    have along : Along step (fun _ => watch.Allows) early since := Along.of_events quiet
    apply run_invariant _ _ along served
    · intro backend turn next settling allowed taken
      exact watch.settling_step settling allowed taken
    · exact ⟨sound, calm, fun caller there changed =>
          absurd (.inl changed) (unchanged caller there),
        fun caller there settled =>
          absurd (.inr settled) (unchanged caller there)⟩
  have guarded := settling.settled writer at_ settled
  simp only [run, bind_eq_some_iff] at asked
  obtain ⟨asking, begun, rest⟩ := asked
  have serving : watch.Serving start.callers.length asking := by
    have begins : Turn.begins .repos = some .asking := rfl
    have allowed : watch.Allows .repos := by
      intro caller asks
      cases asks
      exact watch.idle
    have sound := sound_step settling.sound begun
    cases begun
    exact ⟨sound, watch.calm_begins settling.calm allowed begins,
      watch.guarded_begins guarded begins, .asking, List.getElem?_concat_length, trivial⟩
  have along : Along step (fun _ => watch.Allows) asking later := Along.of_events quietAfter
  have served : watch.Serving start.callers.length final := by
    apply run_invariant _ serving along rest
    intro backend turn next serving allowed taken
    exact watch.serving_step serving allowed taken
  obtain ⟨caller, there, shows⟩ := served.shows
  rw [answered] at there
  cases there
  exact shows

end Watch

end Cornus.Storage
