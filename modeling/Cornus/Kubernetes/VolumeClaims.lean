import Cornus.Kubernetes.Volumes

/-!
# Which claims an apply can rely on

An apply waits out the workload it replaces, and with it the claims that
workload owns.  Of a claim that is owned by another workload it only sees
whether it is marked.  The claims of a successful apply therefore stay exactly
if each of those found at the start is marked, nobody's, or owned by a workload
that stays or is waited for.
-/

namespace Cornus.Kubernetes

open Lib Option AList List Bool World

section Collector

variable {world next : World}

/-- What a step may do to a claim. -/
inductive ClaimStep (workloads : Incumbents) : VolumeClaim → VolumeClaim → Prop where
  | same (claim : VolumeClaim) : ClaimStep workloads claim claim
  | marked (claim : VolumeClaim) (owned : claim.owners ≠ [])
      (none_stays : ∀ owner ∈ claim.owners, ¬Solid workloads owner) :
      ClaimStep workloads claim { claim with terminating := true }
  | detached (claim : VolumeClaim) (owner : Owner) (leaving : ¬Solid workloads owner)
      (other_stays : ∃ other ∈ claim.owners, Solid workloads other) :
      ClaimStep workloads claim { claim with owners := claim.owners.filter (· ≠ owner) }

/-- What one step of the collector does. -/
inductive Collected (world : World) : World → Prop where
  | changed {target : String} {found after : VolumeClaim}
      (held : world.claims.lookup target = some found)
      (step : ClaimStep world.workloads found after) :
      Collected world { world with claims := world.claims.insert target after }
  | removed {target : String} {found : VolumeClaim}
      (held : world.claims.lookup target = some found) (marked : found.terminating = true) :
      Collected world { world with claims := world.claims.erase target }
  | finished {kind : WorkloadKind} {name : String} {incumbent : Incumbent}
      (running : world.workloads.lookup (kind, name) = some incumbent)
      (going : incumbent.terminating = true)
      (unreferred : ∀ claim found, world.claims.lookup claim = some found →
        (⟨kind, name, incumbent.uid⟩ : Owner) ∉ found.owners) :
      Collected world { world with workloads := world.workloads.erase (kind, name) }

section

variable (taken : world.collector event = some next)
include taken

theorem collected : Collected world next := by
  cases event with
  | call uid | fail => cases taken
  | mark | detach | collect | finish =>
    obtain ⟨found, held, taken⟩ := bind_eq_some_iff.mp taken
    split at taken <;> cases taken
    rename_i allowed
    first
      | exact .changed held (.marked found allowed.1 allowed.2)
      | exact .changed held (.detached found _ allowed.1 allowed.2)
      | exact .removed held allowed
      | exact .finished held allowed.1 fun claim found held =>
          allowed.2 ⟨claim, found⟩ (mem_lookup_iff.mp held)

theorem solid_collector (owner : Owner) :
    Solid next.workloads owner ↔ Solid world.workloads owner := by
  cases collected taken with
  | changed | removed => rfl
  | @finished kind name incumbent running going =>
    rw [Solid, Solid]
    by_cases key : (owner.kind, owner.name) = (kind, name)
    · rw [key, lookup_erase, running]
      constructor
      · intro impossible
        cases impossible
      · intro same
        cases same
        cases going
    · rw [lookup_erase_ne key]

theorem collector_claim
    {name : String} {claim : VolumeClaim} (left : next.claims.lookup name = some claim) :
    ∃ before, world.claims.lookup name = some before ∧ ClaimStep world.workloads before claim := by
  cases collected taken with
  | changed held step =>
    rcases lookup_insert_eq_some_iff.mp left with ⟨rfl, rfl⟩ | ⟨-, left⟩
    · exact ⟨_, held, step⟩
    · exact ⟨claim, left, .same claim⟩
  | removed => exact ⟨claim, (lookup_erase_eq_some_iff.mp left).2, .same claim⟩
  | finished => exact ⟨claim, left, .same claim⟩

theorem collector_keeps
    (held : world.claims.lookup name = some claim)
    (unmarked : claim.terminating = false) : ∃ after, next.claims.lookup name = some after := by
  cases collected taken with
  | @changed target _ after =>
    by_cases same : name = target
    · rw [same]
      exact ⟨after, lookup_insert _⟩
    · exact ⟨claim, (lookup_insert_ne same).trans held⟩
  | @removed target found there marked =>
    have other : name ≠ target := by
      intro same
      rw [same, there] at held
      cases held
      rw [unmarked] at marked
      cases marked
    exact ⟨claim, (lookup_erase_ne other).trans held⟩
  | finished => exact ⟨claim, held⟩

end

end Collector

variable (kind : WorkloadKind) (name : String) (requests : List ClaimRequest)
  (awaited : Option Owner) (workloads : Incumbents) (claim : VolumeClaim)

/-- The claim is marked, nobody's, or one of its owners stays, apart from the
one waited for, which may also just be there still. -/
def Waits : Prop :=
  claim.terminating = true ∨ claim.owners = [] ∨
    ∃ owner ∈ claim.owners,
      (Solid workloads owner ∧ awaited ≠ some owner) ∨
        (awaited = some owner ∧
          (workloads.lookup (owner.kind, owner.name)).map Incumbent.uid = some owner.uid)

structure Before (world : World) : Prop where
  incumbent : (world.workloads.lookup (kind, name)).isSome → world.awaited kind name = awaited
  claims : ∀ request ∈ requests, request.anonymous → ∀ claim,
    world.claims.lookup request.name = some claim → Waits awaited world.workloads claim

/-- The claim is marked, nobody's, or one of its owners stays. -/
def Stays : Prop :=
  claim.terminating = true ∨ claim.owners = [] ∨ ∃ owner ∈ claim.owners, Solid workloads owner

/-- After the apply has its workload, with the claims still to be seen to. -/
structure After (world : World) (uid : Nat) (rest : List ClaimRequest) : Prop where
  applied : world.workloads.lookup (kind, name) = some ⟨uid, false⟩
  within : ∀ request ∈ rest, request ∈ requests
  claims : ∀ request ∈ requests, request.anonymous → ∀ claim,
    world.claims.lookup request.name = some claim → Stays world.workloads claim
  ensured : ∀ request ∈ requests, request ∉ rest → request.anonymous →
    ∃ claim, world.claims.lookup request.name = some claim ∧ claim.terminating = false

/-- The phases before the workload of the kind stands. -/
def Phase.precedes : WorkloadKind → Phase → Bool
  | .deployment, .deploying _ | .deployment, .creating _
  | .deployment, .awaiting _ | .deployment, .updating _ => true
  | .job, .starting | .job, .replacing | .job, .awaitingJob
  | .job, .creatingJob => true
  | _, _ => false

/-- What holds before and behind the workload's creation. -/
inductive Good (awaited : Option Owner) : Applying → Prop where
  | before {world : World} {phase : Phase} (early : phase.precedes kind = true)
      (holds : Before kind name requests awaited world) : Good awaited ⟨world, phase⟩
  | ensuring {world : World} {uid : Nat} {rest : List ClaimRequest}
      (holds : After kind name requests world uid rest) : Good awaited ⟨world, .ensuring uid rest⟩
  | inspecting {world : World} {uid : Nat} {rest : List ClaimRequest}
      (holds : After kind name requests world uid rest) : Good awaited ⟨world, .inspecting uid rest⟩
  | done {world : World} {uid : Nat} (holds : After kind name requests world uid []) :
      Good awaited ⟨world, .done uid⟩
  | failed (world : World) : Good awaited ⟨world, .failed⟩

variable {kind name requests} {awaited : Option Owner} {world next : World} {event : VolumeEvent}
  {workloads : Incumbents}

theorem mem_detached {owners : List Owner} {owner : Owner}
    (leaving : ¬Solid workloads owner) (mem : other ∈ owners) (stays : Solid workloads other) :
    other ∈ owners.filter (· ≠ owner) := by
  apply mem_filter.mpr
  refine ⟨mem, ?_⟩
  simp only [ne_eq, decide_not, not_eq_true', decide_eq_false_iff_not]
  intro same
  exact leaving (same ▸ stays)

variable {claim after : VolumeClaim}

theorem Stays.claimStep (stays : Stays workloads claim) (step : ClaimStep workloads claim after) :
    Stays workloads after := by
  cases step with
  | same => exact stays
  | marked => exact .inl rfl
  | detached owner leaving other_stays =>
    obtain ⟨other, mem, solid⟩ := other_stays
    exact .inr (.inr ⟨other, mem_detached leaving mem solid, solid⟩)

theorem Waits.claimStep (waits : Waits awaited workloads claim)
    (step : ClaimStep workloads claim after) : Waits awaited workloads after := by
  cases step with
  | same => exact waits
  | marked => exact .inl rfl
  | detached owner leaving other_stays =>
    obtain ⟨other, mem, solid⟩ := other_stays
    refine .inr (.inr ⟨other, mem_detached leaving mem solid, ?_⟩)
    by_cases expected : awaited = some other
    · refine .inr ⟨expected, ?_⟩
      rw [solid]
      rfl
    · exact .inl ⟨solid, expected⟩

theorem Stays.mono (stays : Stays workloads claim)
    (kept : ∀ owner, Solid workloads owner → Solid larger owner) : Stays larger claim := by
  refine stays.imp_right (Or.imp_right ?_)
  rintro ⟨owner, mem, solid⟩
  exact ⟨owner, mem, kept owner solid⟩

theorem ClaimStep.unmarked (step : ClaimStep workloads claim after)
    (stays : Stays workloads claim) (unmarked : claim.terminating = false)
    : after.terminating = false := by
  cases step with
  | same => exact unmarked
  | detached => exact unmarked
  | marked owned none_stays =>
    rcases stays with marked | unowned | ⟨owner, mem, solid⟩
    · rw [unmarked] at marked
      cases marked
    · exact absurd unowned owned
    · exact absurd solid (none_stays owner mem)

variable {uid : Nat} {rest : List ClaimRequest}

theorem After.collector (holds : After kind name requests world uid rest)
    (taken : world.collector event = some next) : After kind name requests next uid rest := by
  have applied := (solid_collector taken ⟨kind, name, uid⟩).mpr holds.applied
  refine ⟨applied, holds.within, ?_, ?_⟩
  · intro request among anonymous claim left
    obtain ⟨before, held, step⟩ := collector_claim taken left
    have stays := (holds.claims request among anonymous before held).claimStep step
    exact stays.mono fun owner => (solid_collector taken owner).mpr
  · intro request among seen anonymous
    obtain ⟨claim, held, unmarked⟩ := holds.ensured request among seen anonymous
    obtain ⟨after, left⟩ := collector_keeps taken held unmarked
    obtain ⟨before, same, step⟩ := collector_claim taken left
    rw [held] at same
    cases same
    exact ⟨after, left, step.unmarked (holds.claims request among anonymous claim held) unmarked⟩

theorem awaited_congr (same : next.workloads.lookup (kind, name) =
      world.workloads.lookup (kind, name)) : next.awaited kind name = world.awaited kind name := by
  cases kind <;> simp only [awaited, same]

section

variable (holds : Before kind name requests awaited world)
include holds

/-- The collector keeps what holds before the workload is there: the workload
waited for goes only after its claims. -/
theorem Before.collector
    (taken : world.collector event = some next) : Before kind name requests awaited next := by
  have solid := solid_collector taken
  have claims := @collector_claim _ _ _ taken
  cases collected taken with
  | changed | removed =>
    refine ⟨holds.incumbent, fun request among anonymous claim left => ?_⟩
    obtain ⟨before, held, step⟩ := claims left
    exact (holds.claims request among anonymous before held).claimStep step
  | @finished goneKind goneName gone running going unreferred =>
    constructor
    · intro present
      by_cases key : (kind, name) = (goneKind, goneName)
      · rw [key, lookup_erase] at present
        cases present
      · have kept := @lookup_erase_ne _ _ _ _ _ world.workloads key
        rw [awaited_congr kept]
        rw [kept] at present
        exact holds.incumbent present
    · intro request among anonymous claim left
      refine (holds.claims request among anonymous claim left).imp_right (Or.imp_right ?_)
      rintro ⟨owner, mem, stays | ⟨expected, present⟩⟩
      · exact ⟨owner, mem, .inl ⟨(solid owner).mpr stays.1, stays.2⟩⟩
      · refine ⟨owner, mem, .inr ⟨expected, ?_⟩⟩
        have other : (owner.kind, owner.name) ≠ (goneKind, goneName) := by
          intro key
          rw [key, running] at present
          have uid : gone.uid = owner.uid := Option.some.inj present
          apply unreferred request.name claim left
          rw [uid]
          cases key
          exact mem
        rw [lookup_erase_ne other]
        exact present

theorem Before.stays (gone : ∀ owner, awaited = some owner →
      (world.workloads.lookup (owner.kind, owner.name)).map Incumbent.uid ≠ some owner.uid) :
    ∀ request ∈ requests, request.anonymous → ∀ claim,
      world.claims.lookup request.name = some claim → Stays world.workloads claim := by
  intro request among anonymous claim held
  refine (holds.claims request among anonymous claim held).imp_right (Or.imp_right ?_)
  rintro ⟨owner, mem, stays | ⟨same, present⟩⟩
  · exact ⟨owner, mem, stays.1⟩
  · exact absurd present (gone owner same)

theorem Before.create
    (absent : world.workloads.lookup (kind, name) = none)
    (expected : ∀ owner, awaited = some owner → (owner.kind, owner.name) = (kind, name))
    (taken : world.createWorkload kind name requests uid = some state) :
    Good kind name requests awaited state := by
  have stays := holds.stays fun owner same => by
    rw [expected owner same, absent]
    exact nofun
  rw [createWorkload] at taken
  split at taken <;> cases taken
  apply Good.ensuring
  refine ⟨lookup_insert _, fun _ mem => mem, ?_, ?_⟩
  · intro request among anonymous claim held
    apply (stays request among anonymous claim held).mono
    intro owner solid
    have other : (owner.kind, owner.name) ≠ (kind, name) := by
      intro key
      rw [Solid, key, absent] at solid
      cases solid
    rw [Solid, lookup_insert_ne other]
    exact solid
  · intro request among seen
    exact absurd among seen

end

theorem After.ensure (holds : After kind name requests world uid rest) :
    Good kind name requests awaited (world.ensure kind name uid rest) := by
  cases rest with
  | nil => exact .done holds
  | cons request rest =>
    rw [ensure]
    cases found : world.claims.lookup request.name with
    | some claim => exact .inspecting holds
    | none =>
      apply Good.ensuring
      refine ⟨holds.applied, fun later mem => holds.within later (mem_cons_of_mem _ mem),
        ?_, ?_⟩
      · intro other among anonymous claim held
        rcases lookup_insert_eq_some_iff.mp held with ⟨_, rfl⟩ | ⟨_, held⟩
        · by_cases owned : request.anonymous = true
          · rw [if_pos owned]
            exact .inr (.inr ⟨_, mem_singleton_self _, holds.applied⟩)
          · rw [if_neg owned]
            exact .inr (.inl rfl)
        · exact holds.claims other among anonymous claim held
      · intro other among seen anonymous
        by_cases same : other.name = request.name
        · rw [same]
          exact ⟨_, lookup_insert _, rfl⟩
        · have unseen : other ∉ request :: rest := by
            intro mem
            rcases mem_cons.mp mem with first | later
            · exact same (congrArg ClaimRequest.name first)
            · exact seen later
          obtain ⟨claim, held, unmarked⟩ := holds.ensured other among unseen anonymous
          exact ⟨claim, (lookup_insert_ne same).trans held, unmarked⟩

theorem After.inspect (holds : After kind name requests world uid rest) :
    Good kind name requests awaited (world.inspect uid rest) := by
  cases rest with
  | nil => exact .done holds
  | cons request rest =>
    rw [inspect]
    cases found : world.claims.lookup request.name with
    | none => exact .ensuring holds
    | some claim =>
      simp only
      split
      · exact .ensuring holds
      rename_i unmarked
      apply Good.ensuring
      refine ⟨holds.applied, fun later mem =>
          holds.within later (mem_cons_of_mem _ mem),
        holds.claims, ?_⟩
      intro other among seen anonymous
      by_cases same : other = request
      · rw [same]
        exact ⟨claim, found, eq_false_iff.mpr unmarked⟩
      · apply holds.ensured other among _ anonymous
        intro mem
        rcases mem_cons.mp mem with first | later
        · exact same first
        · exact seen later

theorem Before.replace {incumbent : Incumbent} (holds : Before .job name requests awaited world)
    (running : world.workloads.lookup (.job, name) = some incumbent) :
    Before .job name requests awaited { world with
      workloads := world.workloads.insert (.job, name)
        { incumbent with terminating := true } } := by
  have expected : awaited = some ⟨.job, name, incumbent.uid⟩ := by
    rw [← holds.incumbent (by simp [running])]
    simp [World.awaited, running]
  constructor
  · intro _
    rw [expected]
    simp [World.awaited]
  · intro request among anonymous claim held
    refine (holds.claims request among anonymous claim held).imp_right (Or.imp_right ?_)
    rintro ⟨owner, mem, ⟨solid, unexpected⟩ | ⟨same, present⟩⟩
    · refine ⟨owner, mem, .inl ⟨?_, unexpected⟩⟩
      have other : (owner.kind, owner.name) ≠ (.job, name) := by
        intro key
        apply unexpected
        rw [Solid, key, running] at solid
        cases solid
        cases owner
        cases key
        exact expected
      rw [Solid, lookup_insert_ne other]
      exact solid
    · refine ⟨owner, mem, .inr ⟨same, ?_⟩⟩
      rw [expected] at same
      cases same
      exact congrArg _ (lookup_insert _)

variable {next : Applying}

theorem callStep_early (early : phase.precedes kind = true)
    (taken : callStep kind name requests world uid phase = some next) :
    (next.world = world ∧ (next.phase.precedes kind = true ∨ next.phase = .failed)) ∨
      (world.workloads.lookup (kind, name) = none ∧
        world.createWorkload kind name requests uid = some next) ∨
      (kind = .deployment ∧ ∃ incumbent, world.workloads.lookup (kind, name) = some incumbent ∧
        incumbent.terminating = false ∧ next = ⟨world, .ensuring incumbent.uid requests⟩) ∨
      (kind = .job ∧ ∃ incumbent, world.workloads.lookup (kind, name) = some incumbent ∧
        next = ⟨{ world with
          workloads := world.workloads.insert (kind, name)
            { incumbent with terminating := true } }, .awaitingJob⟩) := by
  -- Of every kind only its own phases are early.
  cases kind <;> cases phase <;> first
    | exact absurd early false_ne_true
    | (simp only [callStep] at taken
       grind [Phase.precedes])

section

variable (good : Good kind name requests awaited state)
  (expected : ∀ owner, awaited = some owner → (owner.kind, owner.name) = (kind, name))
include good expected

theorem Good.callStep
    (taken : callStep kind name requests state.world uid state.phase = some next) :
    Good kind name requests awaited next := by
  cases good with
  | ensuring holds =>
    cases taken
    exact holds.ensure
  | inspecting holds =>
    cases taken
    exact holds.inspect
  | done => cases taken
  | failed => cases taken
  | @before world phase early holds =>
    obtain ⟨after, later⟩ := next
    rcases callStep_early early taken with
      ⟨same, phase⟩ | ⟨absent, created⟩ |
      ⟨kind, incumbent, running, live, updated⟩ |
      ⟨kind, incumbent, running, replaced⟩
    · cases same
      rcases phase with early | failed
      · exact .before early holds
      · cases failed
        exact .failed _
    · exact holds.create absent expected created
    · subst kind
      cases updated
      have unexpected : awaited = none := by
        rw [← holds.incumbent (by simp [running])]
        simp [World.awaited, running, Option.filter, live]
      apply Good.ensuring
      obtain ⟨uid, terminating⟩ := incumbent
      cases live
      refine ⟨running, fun _ mem => mem, holds.stays ?_, ?_⟩
      · intro owner same
        rw [unexpected] at same
        cases same
      · intro request among seen
        exact absurd among seen
    · subst kind
      cases replaced
      exact .before rfl (holds.replace running)

/-- Every event keeps the claims accounted for. -/
theorem Good.volumeStep (taken : volumeStep kind name requests state event = some next) :
    Good kind name requests awaited next := by
  cases event with
  | call uid => exact good.callStep expected taken
  | fail =>
    rw [Kubernetes.volumeStep] at taken
    split at taken <;> cases taken
    exact .failed _
  | mark | detach | collect | finish =>
    obtain ⟨world, happened, rfl⟩ := map_eq_some_iff.mp taken
    cases good with
    | before early holds => exact .before early (holds.collector happened)
    | ensuring holds => exact .ensuring (holds.collector happened)
    | inspecting holds => exact .inspecting (holds.collector happened)
    | done holds => exact .done (holds.collector happened)
    | failed => exact .failed _

end

theorem claimsStay_of_accounted (workload : kind ≠ .knativeService)
    (accounted : ClaimsAccounted kind name requests world) :
    ClaimsStay kind name requests world := by
  intro events state uid reached succeeded _ request among anonymous
  have found : ∀ owner, world.awaited kind name = some owner →
      (owner.kind, owner.name) = (kind, name) ∧
        (world.workloads.lookup (owner.kind, owner.name)).map Incumbent.uid = some owner.uid := by
    intro owner same
    cases kind with
    | deployment =>
      obtain ⟨incumbent, running, rfl⟩ := map_eq_some_iff.mp same
      exact ⟨rfl, congrArg _ (filter_eq_some_iff.mp running).1⟩
    | job =>
      obtain ⟨incumbent, running, rfl⟩ := map_eq_some_iff.mp same
      exact ⟨rfl, congrArg _ running⟩
    | knativeService => cases same
  have start : Good kind name requests (world.awaited kind name) ⟨world, firstPhase kind⟩ := by
    apply Good.before
    · cases kind with
      | deployment => rfl
      | job => rfl
      | knativeService => exact absurd rfl workload
    · refine ⟨fun _ => rfl, ?_⟩
      intro request among anonymous claim held
      refine (accounted request among anonymous claim held).imp_right (Or.imp_right ?_)
      rintro ⟨owner, mem, kept⟩
      refine ⟨owner, mem, ?_⟩
      by_cases same : world.awaited kind name = some owner
      · exact .inr ⟨same, (found owner same).2⟩
      · exact .inl ⟨kept.resolve_right same, same⟩
  have good : Good kind name requests (world.awaited kind name) state := by
    have along : Along (volumeStep kind name requests) (fun _ _ => True)
        ⟨world, firstPhase kind⟩ events :=
      Along.of_events fun _ _ => trivial
    apply run_invariant _ start along reached
    intro before event after holds _ taken
    exact holds.volumeStep (fun owner same => (found owner same).1) taken
  obtain ⟨final, phase⟩ := state
  cases succeeded
  cases good with
  | before early =>
    cases kind <;> cases early
  | done holds =>
    obtain ⟨claim, held, -⟩ := holds.ensured request among not_mem_nil anonymous
    exact lookup_isSome.mp (by rw [held]; rfl)

end Cornus.Kubernetes
