import Cornus.Kubernetes.VolumeClaims
import Mathlib.Data.Fintype.EquivFin

/-!
# A claim that is not accounted for can be lost

If an anonymous claim is unmarked and none of its owners stays or is waited for,
some order of the steps lets the apply succeed on it and then removes it.  The
run is put together from what the collector and the apply can do: clear the
claims of the workload waited for, let it go, create the workload, see to the
claims, and then mark and remove the one that was doomed.
-/

namespace Cornus.Kubernetes

open Lib AList Option World

variable {kind : WorkloadKind} {name : String} {requests : List ClaimRequest}

/-- Some events lead from one state to the other. -/
def Leads (kind : WorkloadKind) (name : String) (requests : List ClaimRequest)
    (state next : Applying) : Prop :=
  ∃ events, run (volumeStep kind name requests) state events = some next

theorem Leads.refl (state : Applying) : Leads kind name requests state state := ⟨[], rfl⟩

theorem Leads.trans (first : Leads kind name requests state middle)
    (second : Leads kind name requests middle next) : Leads kind name requests state next := by
  obtain ⟨early, reached⟩ := first
  obtain ⟨late, reachedNext⟩ := second
  refine ⟨early ++ late, ?_⟩
  rw [run_append, reached]
  exact reachedNext

variable (event : VolumeEvent)

theorem Leads.step (taken : volumeStep kind name requests state event = some next) :
    Leads kind name requests state next := by
  refine ⟨[event], ?_⟩
  rw [run, taken]
  rfl

theorem Leads.collector (taken : world.collector event = some next) :
    Leads kind name requests ⟨world, phase⟩ ⟨next, phase⟩ := by
  apply Leads.step event
  cases event with
  | call uid => cases taken
  | fail => cases taken
  | mark | detach | collect | finish =>
    exact congrArg (Option.map fun world => (⟨world, phase⟩ : Applying)) taken

/-- An unmarked claim none of whose owners stays. -/
structure Doomed (world : World) (name : String) (claim : VolumeClaim) : Prop where
  held : world.claims.lookup name = some claim
  unmarked : claim.terminating = false
  owned : claim.owners ≠ []
  leaving : ∀ owner ∈ claim.owners, ¬Solid world.workloads owner

variable {world : World}

theorem Doomed.lost (isDoomed : Doomed world doomed claim) (phase : Phase) :
    ∃ next, Leads kind name requests ⟨world, phase⟩ ⟨next, phase⟩ ∧
      next.workloads = world.workloads ∧ doomed ∉ next.claims := by
  let marked : World := { world with
    claims := world.claims.insert doomed { claim with terminating := true } }
  let next : World := { marked with claims := marked.claims.erase doomed }
  have mark : world.collector (.mark doomed) = some marked := by
    simp only [collector, isDoomed.held, bind_eq_bind, bind_some]
    exact if_pos ⟨isDoomed.owned, isDoomed.leaving⟩
  have collect : marked.collector (.collect doomed) = some next := by
    simp [collector, marked, next]
  refine ⟨next, (Leads.collector _ mark).trans (Leads.collector _ collect), rfl, ?_⟩
  intro mem
  exact (mem_erase.mp mem).1 rfl

section Clear

/-- Between the two states the claims in a list were made to refer no more to an
owner; those that did not refer to it are as they were. -/
structure Clears (owner : Owner) (targets : List String) (world next : World) : Prop where
  workloads : next.workloads = world.workloads
  kept : ∀ other found, world.claims.lookup other = some found →
    owner ∉ found.owners → next.claims.lookup other = some found
  cleared : ∀ other found, next.claims.lookup other = some found → owner ∈ found.owners →
      other ∉ targets ∧ world.claims.lookup other = some found

theorem Clears.trans
    (first : Clears owner targets world middle) (second : Clears owner later middle next) :
    Clears owner (targets ++ later) world next where
  workloads := second.workloads.trans first.workloads
  kept other found held free := second.kept other found (first.kept other found held free) free
  cleared other found left refers := by
    obtain ⟨outside, before⟩ := second.cleared other found left refers
    obtain ⟨outsideFirst, held⟩ := first.cleared other found before refers
    refine ⟨?_, held⟩
    intro mem
    rcases List.mem_append.mp mem with early | late
    · exact outsideFirst early
    · exact outside late

theorem clears_of_changed {claims : Dict VolumeClaim}
    (held : world.claims.lookup target = some found) (refers : owner ∈ found.owners)
    (others : ∀ other, other ≠ target → claims.lookup other = world.claims.lookup other)
    (free : ∀ left, claims.lookup target = some left → owner ∉ left.owners) :
    Clears owner [target] world { world with claims } where
  workloads := rfl
  kept other kept isKept unreferring := by
    rw [others other, isKept]
    intro same
    rw [same, held] at isKept
    cases isKept
    exact unreferring refers
  cleared other left isLeft stillRefers := by
    have apart : other ≠ target := by
      intro same
      rw [same] at isLeft
      exact free left isLeft stillRefers
    refine ⟨by simpa using apart, ?_⟩
    rw [← others other apart]
    exact isLeft

variable (kind name requests) in
/-- One claim is made to refer no more to an owner that is being deleted: a
marked claim is collected, one that another owner keeps is detached, and any
other is marked first. -/
theorem clear_claim (leaving : ¬Solid world.workloads owner) (phase : Phase) (target : String) :
    ∃ next, Leads kind name requests ⟨world, phase⟩ ⟨next, phase⟩ ∧
      Clears owner [target] world next := by
  by_cases clear : ∀ found, world.claims.lookup target = some found → owner ∉ found.owners
  · refine ⟨world, .refl _, rfl, fun _ _ held _ => held, ?_⟩
    intro other found held refers
    refine ⟨?_, held⟩
    intro mem
    rw [List.mem_singleton.mp mem] at held
    exact clear found held refers
  push Not at clear
  obtain ⟨found, held, refers⟩ := clear
  by_cases kept : ∃ other ∈ found.owners, Solid world.workloads other
  · let claims := world.claims.insert target
      { found with owners := found.owners.filter (· ≠ owner) }
    have detach : world.collector (.detach target owner) = some { world with claims } := by
      simp only [collector, held, bind_eq_bind, bind_some]
      exact if_pos ⟨leaving, kept⟩
    refine ⟨_, .collector _ detach, clears_of_changed held refers ?_ ?_⟩
    · intro other apart
      exact lookup_insert_ne apart
    · intro left isLeft
      rw [lookup_insert] at isLeft
      cases isLeft
      simp
  push Not at kept
  let marked : World := { world with
    claims := world.claims.insert target { found with terminating := true } }
  have mark : world.collector (.mark target) = some marked := by
    simp only [collector, held, bind_eq_bind, bind_some]
    exact if_pos ⟨List.ne_nil_of_mem refers, kept⟩
  have collect : marked.collector (.collect target) =
      some { world with claims := marked.claims.erase target } := by
    simp [collector, marked]
  refine ⟨_, (Leads.collector _ mark).trans (.collector _ collect),
    clears_of_changed held refers ?_ ?_⟩
  · intro other apart
    rw [lookup_erase_ne apart]
    exact lookup_insert_ne apart
  · intro left isLeft
    rw [lookup_erase] at isLeft
    cases isLeft

variable (kind name requests) in
theorem clear_claims (leaving : ¬Solid world.workloads owner) (phase : Phase)
    (targets : List String) : ∃ next, Leads kind name requests ⟨world, phase⟩ ⟨next, phase⟩ ∧
      Clears owner targets world next := by
  induction targets generalizing world with
  | nil =>
    exact ⟨world, .refl _, rfl, fun _ _ held _ => held, fun _ _ held _ => ⟨List.not_mem_nil, held⟩⟩
  | cons target rest ih =>
    obtain ⟨middle, leads, first⟩ := clear_claim kind name requests leaving phase target
    rw [← first.workloads] at leaving
    obtain ⟨next, leadsOn, second⟩ := ih leaving
    exact ⟨next, leads.trans leadsOn, first.trans second⟩

/-- A workload that is being deleted goes, and a doomed claim of others is left
as it is. -/
theorem Doomed.outwaits (isDoomed : Doomed world doomed claim)
    (going : world.workloads.lookup (kind, name) = some ⟨uid, true⟩)
    (other : (⟨kind, name, uid⟩ : Owner) ∉ claim.owners) (phase : Phase) :
    ∃ next, Leads kind name requests ⟨world, phase⟩ ⟨next, phase⟩ ∧
      next.workloads.lookup (kind, name) = none ∧ Doomed next doomed claim := by
  have leaving : ¬Solid world.workloads ⟨kind, name, uid⟩ := by
    intro solid
    rw [Solid, going] at solid
    cases solid
  obtain ⟨cleared, leads, clears⟩ := clear_claims kind name requests leaving phase world.claims.keys
  have free : ∀ entry ∈ cleared.claims.entries, (⟨kind, name, uid⟩ : Owner) ∉ entry.2.owners := by
    intro entry mem refers
    have held := clears.cleared entry.1 entry.2 (mem_lookup_iff.mpr mem) refers
    apply held.1
    apply mem_keys.mp
    exact lookup_isSome.mp (by rw [held.2]; rfl)
  let next : World := { cleared with workloads := cleared.workloads.erase (kind, name) }
  have finish : cleared.collector (.finish kind name) = some next := by
    simp only [collector, clears.workloads, going, bind_eq_bind, bind_some]
    rw [if_pos ⟨trivial, free⟩, ← clears.workloads]
  have held := clears.kept doomed claim isDoomed.held other
  refine ⟨next, leads.trans (.collector _ finish), lookup_erase _ _, ?_⟩
  refine ⟨held, isDoomed.unmarked, isDoomed.owned, ?_⟩
  intro owner mem solid
  apply isDoomed.leaving owner mem
  rw [← clears.workloads]
  exact (solid_collector finish owner).mp solid

end Clear

section Create

variable (kind name) in
theorem exists_unused (world : World) : ∃ uid, ∀ entry ∈ world.claims.entries,
      (⟨kind, name, uid⟩ : Owner) ∉ entry.2.owners := by
  let used := world.claims.entries.flatMap fun entry =>
    entry.2.owners.map Owner.uid
  obtain ⟨uid, unused⟩ := Infinite.exists_notMem_finset used.toFinset
  refine ⟨uid, ?_⟩
  intro entry mem refers
  apply unused
  rw [List.mem_toFinset]
  exact List.mem_flatMap.mpr ⟨entry, mem, List.mem_map_of_mem refers⟩

variable (requests) in
theorem Doomed.create (isDoomed : Doomed world doomed claim)
    (absent : world.workloads.lookup (kind, name) = none) :
    ∃ uid next, world.createWorkload kind name requests uid = some ⟨next, .ensuring uid requests⟩ ∧
      next.workloads.lookup (kind, name) = some ⟨uid, false⟩ ∧ Doomed next doomed claim := by
  obtain ⟨uid, unused⟩ := exists_unused kind name world
  refine ⟨uid, { world with workloads := world.workloads.insert (kind, name) ⟨uid, false⟩ },
    if_pos unused, lookup_insert _, ?_⟩
  refine { isDoomed with leaving := ?_ }
  intro owner mem solid
  rcases lookup_insert_eq_some_iff.mp solid with ⟨⟨⟩, ⟨⟩⟩ | ⟨_, solid⟩
  · exact unused ⟨doomed, claim⟩ (mem_lookup_iff.mp isDoomed.held) mem
  · exact isDoomed.leaving owner mem solid

theorem Doomed.ensure (rest : List ClaimRequest) (isDoomed : Doomed world doomed claim) :
    ∃ next, Leads kind name requests ⟨world, .ensuring uid rest⟩ ⟨next, .done uid⟩ ∧
      next.workloads = world.workloads ∧ Doomed next doomed claim := by
  induction rest generalizing world with
  | nil => exact ⟨world, .step (.call 0) rfl, rfl, isDoomed⟩
  | cons request rest ih =>
    have afresh : ∀ {world : World}, world.claims.lookup request.name = none →
        Doomed world doomed claim →
        ∃ next, Leads kind name requests
            ⟨world, .ensuring uid (request :: rest)⟩ ⟨next, .done uid⟩ ∧
          next.workloads = world.workloads ∧ Doomed next doomed claim := by
      intro world found isDoomed
      let owners : List Owner :=
        if request.anonymous then [⟨kind, name, uid⟩] else []
      let middle : World := { world with
        claims := world.claims.insert request.name ⟨owners, false⟩ }
      have other : doomed ≠ request.name := by
        intro same
        rw [← same, isDoomed.held] at found
        cases found
      have still : Doomed middle doomed claim :=
        { isDoomed with held := (lookup_insert_ne other).trans isDoomed.held }
      have created : volumeStep kind name requests
          ⟨world, .ensuring uid (request :: rest)⟩ (.call 0) =
            some ⟨middle, .ensuring uid rest⟩ := by
        simp only [volumeStep, callStep, ensure, found]
        rfl
      obtain ⟨next, leads, workloads, ended⟩ := ih still
      exact ⟨next, (Leads.step _ created).trans leads, workloads, ended⟩
    cases found : world.claims.lookup request.name with
    | none => exact afresh found isDoomed
    | some held =>
      by_cases marked : held.terminating = true
      · -- The marked claim is collected and made anew.
        let middle : World := { world with claims := world.claims.erase request.name }
        have collect : world.collector (.collect request.name) = some middle := by
          simp [collector, found, marked, middle]
        have other : doomed ≠ request.name := by
          intro same
          rw [← same, isDoomed.held] at found
          cases found
          rw [isDoomed.unmarked] at marked
          cases marked
        have still : Doomed middle doomed claim :=
          { isDoomed with held := (lookup_erase_ne other).trans isDoomed.held }
        obtain ⟨next, leads, workloads, ended⟩ := afresh (lookup_erase _ _) still
        exact ⟨next, (Leads.collector _ collect).trans leads, workloads, ended⟩
      · have tried : volumeStep kind name requests
            ⟨world, .ensuring uid (request :: rest)⟩ (.call 0) =
              some ⟨world, .inspecting uid (request :: rest)⟩ := by
          simp only [volumeStep, callStep, ensure, found]
        have reused : volumeStep kind name requests
            ⟨world, .inspecting uid (request :: rest)⟩ (.call 0) =
              some ⟨world, .ensuring uid rest⟩ := by
          simp only [volumeStep, callStep, inspect, found]
          rw [if_neg marked]
        obtain ⟨next, leads, workloads, ended⟩ := ih isDoomed
        exact ⟨next, ((Leads.step _ tried).trans (.step _ reused)).trans leads, workloads, ended⟩

theorem Doomed.workload (isDoomed : Doomed world doomed claim)
    (dependents : kind ≠ .knativeService) (unawaited : ∀ owner ∈ claim.owners,
      world.awaited kind name ≠ some owner) :
    ∃ uid next, Leads kind name requests ⟨world, firstPhase kind⟩ ⟨next, .ensuring uid requests⟩ ∧
      next.workloads.lookup (kind, name) = some ⟨uid, false⟩ ∧ Doomed next doomed claim := by
  cases kind with
  | knativeService => exact absurd rfl dependents
  | deployment =>
    have created : ∀ {world : World} {attempt : Nat}, attempt < 3 →
        world.workloads.lookup (.deployment, name) = none →
        Doomed world doomed claim →
        ∃ uid next, Leads .deployment name requests
            ⟨world, .deploying attempt⟩ ⟨next, .ensuring uid requests⟩ ∧
          next.workloads.lookup (.deployment, name) = some ⟨uid, false⟩ ∧
          Doomed next doomed claim := by
      intro world attempt few absent isDoomed
      obtain ⟨uid, next, made, placed, ended⟩ := isDoomed.create requests absent
      have looked : volumeStep .deployment name requests ⟨world, .deploying attempt⟩ (.call 0) =
            some ⟨world, .creating attempt⟩ := by
        simp only [volumeStep, callStep, absent]
        exact if_neg (Nat.not_le.mpr few)
      have creates : volumeStep .deployment name requests ⟨world, .creating attempt⟩ (.call uid) =
            some ⟨next, .ensuring uid requests⟩ := by
        simp only [volumeStep, callStep, absent]
        exact made
      exact ⟨uid, next, (Leads.step _ looked).trans (.step _ creates), placed, ended⟩
    cases present : world.workloads.lookup (.deployment, name) with
    | none => exact created (show 0 < 3 by omega) present isDoomed
    | some incumbent =>
      obtain ⟨uid, terminating⟩ := incumbent
      cases terminating with
      | false =>
        have looked : volumeStep .deployment name requests
            ⟨world, .deploying 0⟩ (.call 0) = some ⟨world, .updating 0⟩ := by
          simp [volumeStep, callStep, present]
        have updated : volumeStep .deployment name requests ⟨world, .updating 0⟩ (.call 0) =
              some ⟨world, .ensuring uid requests⟩ := by
          simp [volumeStep, callStep, present]
        exact ⟨uid, world, (Leads.step _ looked).trans (.step _ updated), present, isDoomed⟩
      | true =>
        have other : (⟨.deployment, name, uid⟩ : Owner) ∉ claim.owners := by
          intro mem
          apply unawaited _ mem
          simp [awaited, present, Option.filter]
        have looked : volumeStep .deployment name requests
            ⟨world, .deploying 0⟩ (.call 0) = some ⟨world, .awaiting 0⟩ := by
          simp [volumeStep, callStep, present]
        obtain ⟨middle, waits, absent, still⟩ := isDoomed.outwaits present other (.awaiting 0)
        have gone : volumeStep .deployment name requests
            ⟨middle, .awaiting 0⟩ (.call 0) = some ⟨middle, .deploying 1⟩ := by
          simp [volumeStep, callStep, absent]
        obtain ⟨fresh, next, leads, placed, ended⟩ := created (show 1 < 3 by omega) absent still
        exact ⟨fresh, next, (((Leads.step _ looked).trans waits).trans (.step _ gone)).trans
            leads, placed, ended⟩
  | job =>
    have created : ∀ {world : World}, world.workloads.lookup (.job, name) = none →
        Doomed world doomed claim →
        ∃ uid next, Leads .job name requests ⟨world, .creatingJob⟩ ⟨next, .ensuring uid requests⟩ ∧
          next.workloads.lookup (.job, name) = some ⟨uid, false⟩ ∧
          Doomed next doomed claim := by
      intro world absent isDoomed
      obtain ⟨uid, next, made, placed, ended⟩ := isDoomed.create requests absent
      have creates : volumeStep .job name requests ⟨world, .creatingJob⟩ (.call uid) =
            some ⟨next, .ensuring uid requests⟩ := by
        simp only [volumeStep, callStep, absent]
        exact made
      exact ⟨uid, next, .step _ creates, placed, ended⟩
    cases present : world.workloads.lookup (.job, name) with
    | none =>
      have looked : volumeStep .job name requests
          ⟨world, .starting⟩ (.call 0) = some ⟨world, .creatingJob⟩ := by
        simp only [volumeStep, callStep, present]
      obtain ⟨uid, next, leads, placed, ended⟩ := created present isDoomed
      exact ⟨uid, next, (Leads.step _ looked).trans leads, placed, ended⟩
    | some incumbent =>
      have other : (⟨.job, name, incumbent.uid⟩ : Owner) ∉ claim.owners := by
        intro mem
        apply unawaited _ mem
        simp [awaited, present]
      have looked : volumeStep .job name requests
          ⟨world, .starting⟩ (.call 0) = some ⟨world, .replacing⟩ := by
        simp only [volumeStep, callStep, present]
      let marked : World := { world with
        workloads := world.workloads.insert (.job, name) { incumbent with terminating := true } }
      have deleted : volumeStep .job name requests
          ⟨world, .replacing⟩ (.call 0) = some ⟨marked, .awaitingJob⟩ := by
        simp only [volumeStep, callStep, present]
        rfl
      have markedDoomed : Doomed marked doomed claim := by
        refine { isDoomed with leaving := ?_ }
        intro owner mem solid
        rcases lookup_insert_eq_some_iff.mp solid with ⟨_, live⟩ | ⟨_, solid⟩
        · cases congrArg Incumbent.terminating live
        · exact isDoomed.leaving owner mem solid
      obtain ⟨middle, waits, absent, still⟩ :=
        markedDoomed.outwaits (lookup_insert _) other .awaitingJob
      have gone : volumeStep .job name requests
          ⟨middle, .awaitingJob⟩ (.call 0) = some ⟨middle, .creatingJob⟩ := by
        simp only [volumeStep, callStep, absent]
      obtain ⟨fresh, next, leads, placed, ended⟩ := created absent still
      exact ⟨fresh, next, ((((Leads.step _ looked).trans (.step _ deleted)).trans waits).trans
          (.step _ gone)).trans leads, placed, ended⟩

end Create

theorem accounted_of_claimsStay (dependents : kind ≠ .knativeService)
    (stay : ClaimsStay kind name requests world) : ClaimsAccounted kind name requests world := by
  intro request among anonymous claim held
  by_contra unaccounted
  simp only [World.Accounted, not_or, not_exists, not_and] at unaccounted
  obtain ⟨unmarked, owned, leaving⟩ := unaccounted
  have isDoomed : Doomed world request.name claim :=
    ⟨held, Bool.eq_false_iff.mpr unmarked, owned, fun owner mem => (leaving owner mem).1⟩
  obtain ⟨uid, placed, early, applied, still⟩ :=
    isDoomed.workload dependents fun owner mem => (leaving owner mem).2
  obtain ⟨ended, middle, kept, doomedStill⟩ := still.ensure requests
  obtain ⟨last, late, workloads, lost⟩ := doomedStill.lost (.done uid)
  obtain ⟨events, reached⟩ := (early.trans middle).trans late
  apply lost
  apply stay events ⟨last, .done uid⟩ uid reached rfl _ request among anonymous
  rw [workloads, kept, applied]
  rfl

theorem volumes_of_knative
    (chosen : workloadKind caps spec = .ok .knativeService) : spec.volumes = [] := by
  obtain ⟨_, guarded, chosen⟩ := exists_of_bind_ok chosen
  have enabled : (spec.knative.filter KnativeSpec.enabled).isSome = true := by
    by_contra disabled
    simp only [disabled] at chosen
    split at chosen
    · contradiction
    · cases oneShot : isOneShot spec <;> simp [oneShot] at chosen <;> cases chosen
  obtain ⟨knative, found⟩ := isSome_iff_exists.mp enabled
  rw [knativeGuard, found] at guarded
  simp only at guarded
  obtain ⟨_, -, guarded⟩ := exists_of_bind_ok guarded
  by_contra volumes
  -- The guard checks four other features before the volumes.
  have passes : ∀ {check : Prop} [Decidable check] {stop rest : Except Refusal Unit} {value : Unit},
      (if check then stop else rest) = .ok value →
      (∀ value, stop ≠ .ok value) → rest = .ok value := by
    intro check _ stop rest value passed stops
    by_cases holds : check
    · rw [if_pos holds] at passed
      exact absurd passed (stops value)
    · rw [if_neg holds] at passed
      exact passed
  have thrown : ∀ {refusal : Refusal} {rest : Unit → Except Refusal Unit} value,
      (throw refusal >>= rest : Except Refusal Unit) ≠ .ok value := by
    intro refusal rest value same
    cases same
  have oneShotPassed := passes guarded thrown
  have ingressPassed := passes oneShotPassed thrown
  have mountsPassed := passes ingressPassed thrown
  have networksPassed := passes mountsPassed thrown
  rw [if_pos volumes] at networksPassed
  exact thrown _ networksPassed

/-- The anonymous claims of a successful apply stay, whatever the collector does,
exactly if each of those that existed before is accounted for. -/
theorem claimsStay_iff (platform : Platform) {caps : Capabilities}
    {spec : DeploySpec} {kind : WorkloadKind}
    (chosen : workloadKind caps spec = .ok kind) (world : World) :
    ClaimsStay kind spec.name (claimRequests platform spec) world ↔
      ClaimsAccounted kind spec.name (claimRequests platform spec) world := by
  by_cases knative : kind = .knativeService
  · subst knative
    have bare : claimRequests platform spec = [] := by
      rw [claimRequests, volumes_of_knative chosen]
      rfl
    rw [bare]
    constructor
    · intro _ request among
      cases among
    · intro _ _ _ _ _ _ _ request among
      cases among
  · exact ⟨accounted_of_claimsStay knative, claimsStay_of_accounted knative⟩

/-- A service with one anonymous volume. -/
def cacheSpec (restart : String) : DeploySpec where
  name := "web"
  restart
  volumes := [""]

/-- The Deployment `web` is being deleted; its claim is not marked yet. -/
def leavingWorld : World where
  workloads := AList.singleton (.deployment, "web") ⟨1, true⟩
  claims := AList.singleton "web-vol-0" ⟨[⟨.deployment, "web", 1⟩], false⟩

/-- Applied again as a Deployment, the spec waits for the old one. -/
theorem deploymentClaims_stay :
    ClaimsStay .deployment "web" [⟨"web-vol-0", true⟩] leavingWorld := by
  have chosen : workloadKind {} (cacheSpec "") = .ok .deployment := by
    decide +kernel
  have requested : claimRequests asciiPlatform (cacheSpec "") = [⟨"web-vol-0", true⟩] := by
    decide +kernel
  have stay := claimsStay_iff asciiPlatform chosen leavingWorld
  rw [requested] at stay
  apply stay.mpr
  intro request among anonymous claim held
  rw [List.mem_singleton.mp among] at held
  cases held
  exact .inr (.inr ⟨_, List.mem_singleton_self _, .inr rfl⟩)

/-- Applied again as a Job, the spec relies on the claim of the Deployment that
is being deleted. -/
theorem jobClaims_not_stay : ¬ClaimsStay .job "web" (claimRequests asciiPlatform (cacheSpec "no"))
      leavingWorld := by
  intro stay
  let events : List VolumeEvent := [.call 0, .call 2, .call 0, .call 0, .call 0,
    .mark "web-vol-0", .collect "web-vol-0"]
  have seen : ((run (volumeStep .job "web" (claimRequests asciiPlatform (cacheSpec "no")))
      ⟨leavingWorld, firstPhase .job⟩ events).map fun state =>
        (state.phase, (state.world.workloads.lookup (.job, "web")).map
          Incumbent.uid, state.world.claims.keys)) =
      some (.done 2, some 2, []) := by
    decide +kernel
  obtain ⟨state, reached, shown⟩ := map_eq_some_iff.mp seen
  have succeeded : state.phase = .done 2 := congrArg (·.1) shown
  have running : (state.world.workloads.lookup (.job, "web")).map
      Incumbent.uid = some 2 := congrArg (·.2.1) shown
  have none_ : state.world.claims.keys = [] := congrArg (·.2.2) shown
  have kept := stay events state 2 reached succeeded running ⟨"web-vol-0", true⟩
    (by decide +kernel) rfl
  have listed := mem_keys.mp kept
  rw [none_] at listed
  cases listed

end Cornus.Kubernetes
