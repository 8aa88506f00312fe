import Cornus.Kubernetes.Workload

/-!
# Shared network objects

A workload that joins a network carries a membership label in its pod template.
The objects that back a network are shared by its members and named by the
label.  `Delete` removes a deployment of any kind and then reaps the network
objects that no member is left of; it looks for members among the Deployments
only.
-/

namespace Cornus.Kubernetes

open List

/-- A workload, as the collection sees it. -/
structure Workload where
  kind : WorkloadKind
  name : String
  managed : Bool
  terminating : Bool := false
  template : Dict String

/-- The kinds of object a network may be made of. -/
inductive NetworkKind where
  | networkAttachmentDefinition
  | ciliumNetworkPolicy
  | networkPolicy
  deriving DecidableEq

/-- An object of a network. -/
structure NetworkObject where
  kind : NetworkKind
  name : String
  managed : Bool
  deriving DecidableEq

/-- The workloads and network objects of a namespace. -/
structure Namespace where
  workloads : List Workload
  networks : List NetworkObject

/-- The workload that a spec asks for. -/
def applyWorkload (platform : Platform) (caps : Capabilities)
    (spec : DeploySpec) : Except Refusal Workload := do
  let kind ← workloadKind caps spec
  return {
    kind
    name := spec.name
    managed := true
    template := templateLabels platform kind spec }

/-- How the call that deletes a workload ends. -/
inductive Reply where
  /-- The workload is deleted, or was not there. -/
  | done
  | forbidden
  | failed
  deriving DecidableEq

/-- The backend's clients, and how the calls of one `Delete` end. -/
structure Api where
  dyn : Bool
  knativeServed : Bool
  deletes : WorkloadKind → Reply
  /-- Whether a deleted workload stays for a while, terminating. -/
  lingers : WorkloadKind → Bool
  listsDeployments : Bool
  lists : NetworkKind → Bool
  removes : NetworkObject → Bool

def cutPre (text pre : String) : Option String :=
  if pre.toList.isPrefixOf text.toList then
    some (String.ofList (text.toList.drop pre.toList.length))
  else none

namespace Workload

variable (workload : Workload)

/-- The networks that the template's labels name. -/
def networks : List String :=
  workload.template.keys.filterMap (cutPre · netLabelPre)

/-- The workload is managed and not on its way out. -/
def live : Bool :=
  workload.managed && !workload.terminating

def isNamed (kind : WorkloadKind) (name : String) (workload : Workload) : Bool :=
  workload.kind = kind && workload.name = name

end Workload

section Delete

variable (api : Api) (kind : WorkloadKind) (name : String) (workloads : List Workload)

/-- The API server deletes a workload, at once or in the end. -/
def removeWorkload : List Workload :=
  if api.lingers kind then
    workloads.map fun workload =>
      if workload.isNamed kind name then { workload with terminating := true }
      else workload
  else workloads.filter fun workload => !workload.isNamed kind name

/-- The networks of the deployments, which is all `GC` lists. -/
def referenced : List String :=
  (workloads.filter fun workload =>
    workload.kind = .deployment && workload.live).flatMap Workload.networks

/-- The managed objects of a kind that nothing refers to are deleted. -/
def sweepKind (inUse : List String) (kind : NetworkKind)
    (networks : List NetworkObject) : List NetworkObject :=
  if api.lists kind then
    networks.filter fun object =>
      !(object.kind = kind && object.managed && !inUse.contains object.name && api.removes object)
  else networks

variable (namesp : Namespace)

/-- `Engine.GC`. -/
def gcNetworks : Namespace :=
  if api.listsDeployments then
    let inUse := referenced namesp.workloads
    let custom :=
      if api.dyn then
        sweepKind api inUse .ciliumNetworkPolicy
          (sweepKind api inUse .networkAttachmentDefinition namesp.networks)
      else namesp.networks
    { namesp with networks := sweepKind api inUse .networkPolicy custom }
  else namesp

/-- The deletion of a Knative service, where that API is served. -/
def deleteKnative : Option (List Workload) :=
  if api.dyn && api.knativeServed then
    match api.deletes .knativeService with
    | .done => some (removeWorkload api .knativeService name workloads)
    | .forbidden => some workloads
    | .failed => none
  else some workloads

/-- The deletion of a workload of a built-in kind. -/
def deleteTyped : Option (List Workload) :=
  match api.deletes kind with
  | .done => some (removeWorkload api kind name workloads)
  | _ => none

/-- `Delete`, with whether it succeeds. -/
def delete (name : String) : Bool × Namespace :=
  match deleteTyped api .deployment name namesp.workloads with
  | none => (false, namesp)
  | some workloads =>
    match deleteTyped api .job name workloads with
    | none => (false, { namesp with workloads })
    | some workloads =>
      match deleteKnative api name workloads with
      | none => (false, { namesp with workloads })
      | some workloads => (true, gcNetworks api { namesp with workloads })

end Delete

section Claim

variable (api : Api) (namesp : Namespace) (name : String)

/-- A live workload is on the network. -/
def hasMember (workloads : List Workload) (network : String) : Bool :=
  workloads.any fun workload =>
    workload.live && workload.networks.contains network

/-- Every call of a `Delete` succeeds. -/
structure Api.Succeeds : Prop where
  deletes : ∀ kind, api.deletes kind = .done
  listsDeployments : api.listsDeployments = true
  lists : ∀ kind, api.lists kind = true
  removes : ∀ object, api.removes object = true

/-- `Delete` keeps the network objects that remaining workloads use, and if its
calls succeed it reaps the managed ones that none uses. -/
def NetworksCollected : Prop :=
  let rest := (delete api namesp name).2
  (∀ object ∈ namesp.networks, hasMember rest.workloads object.name →
      object ∈ rest.networks) ∧
    (api.Succeeds → ∀ object ∈ rest.networks, object.managed → hasMember rest.workloads object.name)

/-- The deletion gets as far as the collection. -/
def Api.sweeps : Bool :=
  api.deletes .deployment = .done && api.deletes .job = .done && (!(api.dyn && api.knativeServed) ||
      api.deletes .knativeService ≠ .failed) && api.listsDeployments

/-- The collection can list and delete the object. -/
def Api.reaches (object : NetworkObject) : Bool :=
  api.sweeps && object.managed && api.lists object.kind &&
    api.removes object && (object.kind = .networkPolicy || api.dyn)

/-- The workload is not the one to be deleted, or it is a Knative Service that
the backend cannot delete. -/
def Workload.stays (workload : Workload) : Bool :=
  workload.live && !(workload.name = name && (workload.kind ≠ .knativeService ||
        (api.dyn && api.knativeServed && api.deletes .knativeService = .done)))

/-- Some staying workload of these kinds is a member of the network. -/
def keepsMember (kinds : WorkloadKind → Bool) (network : String) : Bool :=
  namesp.workloads.any fun workload =>
    kinds workload.kind && workload.stays api name && workload.networks.contains network

/-- Every network that the sweep reaches and that has a member among the staying
workloads has a Deployment among its members, and without a dynamic client there
is no unused network object that only one could remove. -/
def MembersCounted : Prop :=
  (∀ object ∈ namesp.networks, api.reaches object →
      keepsMember api namesp name (fun _ => true) object.name →
      keepsMember api namesp name (· = .deployment) object.name) ∧
    (api.Succeeds → api.dyn = false → ∀ object ∈ namesp.networks,
      object.managed → object.kind ≠ .networkPolicy →
        keepsMember api namesp name (fun _ => true) object.name)

end Claim

section Members

variable {api : Api} {namesp : Namespace} {name : String}

/-- A live workload of these kinds is on the network. -/
def liveMember (kinds : WorkloadKind → Bool) (network : String) (workload : Workload) : Bool :=
  kinds workload.kind && workload.live && workload.networks.contains network

theorem any_removeWorkload (found : Workload → Bool) (kind : WorkloadKind) (name : String)
    (workloads : List Workload) :
    (removeWorkload api kind name workloads).any (fun workload => workload.live && found workload) =
      workloads.any fun workload =>
        workload.live && (!workload.isNamed kind name && found workload) := by
  rw [removeWorkload]
  split
  · rw [any_map]
    apply congrArg workloads.any
    funext workload
    by_cases named : workload.isNamed kind name = true
    · simp [named, Workload.live]
    · simp [named]
  · simp only [any_filter, Bool.and_left_comm]

/-- Whether the Knative Service goes depends on the third call. -/
theorem deleteKnative_of_answered {workloads : List Workload}
    (answered : (!(api.dyn && api.knativeServed) || api.deletes .knativeService ≠ .failed) = true) :
    deleteKnative api name workloads =
      some (if api.dyn && api.knativeServed && api.deletes .knativeService = .done then
        removeWorkload api .knativeService name workloads else workloads) := by
  rw [deleteKnative]
  cases served : api.dyn && api.knativeServed with
  | false => rfl
  | true =>
    rw [served] at answered
    cases reply : api.deletes .knativeService with
    | done | forbidden => rfl
    | failed => simp [reply] at answered

variable (namesp name) in
/-- A `Delete` that gets to the sweep removes the workloads of this name that it
can remove. -/
theorem delete_of_sweeps (sweeps : api.sweeps = true) : ∃ workloads, delete api namesp name =
        (true, gcNetworks api { namesp with workloads }) ∧
      ∀ kinds network, workloads.any (liveMember kinds network) =
        keepsMember api namesp name kinds network := by
  simp only [Api.sweeps, Bool.and_eq_true, decide_eq_true_eq] at sweeps
  obtain ⟨⟨⟨deployments, jobs⟩, knative⟩, -⟩ := sweeps
  have third := @deleteKnative_of_answered api name
    (removeWorkload api .job name (removeWorkload api .deployment name namesp.workloads)) knative
  simp only [delete, deleteTyped, deployments, jobs, third]
  refine ⟨_, rfl, ?_⟩
  intro kinds network
  have live : liveMember kinds network = fun workload =>
      workload.live && (kinds workload.kind && workload.networks.contains network) := by
    funext workload
    rw [liveMember, Bool.and_assoc, Bool.and_left_comm]
  rw [live, keepsMember]
  split
  · rename_i gone
    rw [any_removeWorkload, any_removeWorkload, any_removeWorkload]
    apply congrArg namesp.workloads.any
    funext workload
    rw [Workload.stays, gone, Workload.isNamed, Workload.isNamed, Workload.isNamed]
    cases workload.kind <;> cases decide (workload.name = name) <;>
      simp [Bool.and_assoc, Bool.and_left_comm]
  · rename_i gone
    rw [any_removeWorkload, any_removeWorkload]
    apply congrArg namesp.workloads.any
    funext workload
    rw [Workload.stays, Bool.eq_false_iff.mpr gone, Workload.isNamed, Workload.isNamed]
    cases workload.kind <;> cases decide (workload.name = name) <;>
      simp [Bool.and_assoc, Bool.and_left_comm]

theorem delete_networks_of_not_sweeps (stops : api.sweeps = false) :
    (delete api namesp name).2.networks = namesp.networks := by
  rw [delete]
  cases deployed : deleteTyped api .deployment name namesp.workloads with
  | none => rfl
  | some workloads =>
    simp only
    cases ran : deleteTyped api .job name workloads with
    | none => rfl
    | some workloads =>
      simp only
      cases served : deleteKnative api name workloads with
      | none => rfl
      | some workloads =>
        simp only [gcNetworks]
        split
        · rename_i lists
          exfalso
          simp only [deleteTyped] at deployed ran
          simp only [deleteKnative] at served
          revert deployed ran served stops
          simp only [Api.sweeps, lists]
          cases api.deletes .deployment <;> cases api.deletes .job <;>
            cases api.deletes .knativeService <;> cases api.dyn <;> cases api.knativeServed <;> simp
        · rfl

theorem referenced_contains (workloads : List Workload) (network : String) :
    (referenced workloads).contains network =
      workloads.any (liveMember (· = .deployment) network) := by
  apply Bool.eq_iff_iff.mpr
  simp only [referenced, contains_iff_mem, mem_flatMap,
    mem_filter, any_eq_true, liveMember, Bool.and_eq_true]
  constructor
  · intro mem
    obtain ⟨workload, ⟨among, kept⟩, joined⟩ := mem
    exact ⟨workload, among, kept, joined⟩
  · intro mem
    obtain ⟨workload, among, kept, joined⟩ := mem
    exact ⟨workload, ⟨among, kept⟩, joined⟩

theorem mem_sweepKind {kind : NetworkKind} {networks : List NetworkObject} :
    object ∈ sweepKind api inUse kind networks ↔ object ∈ networks ∧
        (object.kind = kind → object.managed = true →
          api.lists object.kind = true → api.removes object = true →
            inUse.contains object.name = true) := by
  rw [sweepKind]
  split
  · rename_i lists
    rw [mem_filter]
    apply and_congr_right
    intro _
    simp only [Bool.not_eq_true', Bool.and_eq_false_iff, decide_eq_false_iff_not,
      Bool.not_eq_false']
    constructor
    · intro outcome same managed _ removes
      rcases outcome with ((other | unmanaged) | used) | stays
      · exact absurd same other
      · rw [managed] at unmanaged
        cases unmanaged
      · exact used
      · rw [removes] at stays
        cases stays
    · intro used
      by_cases same : object.kind = kind
      · cases managed : object.managed with
        | false => exact .inl (.inl (.inr rfl))
        | true =>
          cases removes : api.removes object with
          | false => exact .inr rfl
          | true =>
            exact .inl (.inr (used same managed (same ▸ lists) removes))
      · exact .inl (.inl (.inl same))
  · rename_i skipped
    refine ⟨fun among => ⟨among, ?_⟩, And.left⟩
    intro same _ lists
    exact absurd (same ▸ lists) skipped

theorem mem_delete_networks (sweeps : api.sweeps = true) :
    object ∈ (delete api namesp name).2.networks ↔ object ∈ namesp.networks ∧
        (api.reaches object = true →
          keepsMember api namesp name (· = .deployment) object.name = true) := by
  obtain ⟨workloads, result, members⟩ := delete_of_sweeps namesp name sweeps
  have lists : api.listsDeployments = true := by
    simp only [Api.sweeps, Bool.and_eq_true] at sweeps
    exact sweeps.2
  have inUse := referenced_contains workloads object.name
  rw [members] at inUse
  rw [result, gcNetworks, if_pos lists, ← inUse]
  simp only [Api.reaches, sweeps, Bool.true_and, Bool.and_eq_true,
    Bool.or_eq_true, decide_eq_true_eq]
  cases api.dyn with
  | false =>
    simp only [Bool.false_eq_true, if_false, mem_sweepKind, or_false]
    apply and_congr_right
    intro _
    constructor
    · intro policies all
      exact policies all.2 all.1.1.1 all.1.1.2 all.1.2
    · intro all same managed listed removed
      exact all ⟨⟨⟨managed, listed⟩, removed⟩, same⟩
  | true =>
    simp only [if_true, mem_sweepKind, or_true, and_true]
    constructor
    · intro kept
      obtain ⟨⟨⟨among, nads⟩, cnps⟩, policies⟩ := kept
      refine ⟨among, ?_⟩
      intro all
      cases kind : object.kind with
      | networkAttachmentDefinition =>
        exact nads kind all.1.1 all.1.2 all.2
      | ciliumNetworkPolicy => exact cnps kind all.1.1 all.1.2 all.2
      | networkPolicy => exact policies kind all.1.1 all.1.2 all.2
    · intro kept
      obtain ⟨among, all⟩ := kept
      have each : ∀ kind, object.kind = kind → object.managed = true →
          api.lists object.kind = true → api.removes object = true →
            (referenced workloads).contains object.name = true :=
        fun _ _ managed listed removed => all ⟨⟨managed, listed⟩, removed⟩
      exact ⟨⟨⟨among, each _⟩, each _⟩, each _⟩

theorem hasMember_delete (sweeps : api.sweeps = true) (network : String) :
    hasMember (delete api namesp name).2.workloads network =
      keepsMember api namesp name (fun _ => true) network := by
  obtain ⟨workloads, result, members⟩ := delete_of_sweeps namesp name sweeps
  have unswept : (gcNetworks api { namesp with workloads }).workloads = workloads := by
    rw [gcNetworks]
    split <;> rfl
  rw [result, unswept, ← members]
  rfl

theorem keepsMember_of_deployment
    (mem : keepsMember api namesp name (· = .deployment) network = true) :
    keepsMember api namesp name (fun _ => true) network = true := by
  obtain ⟨workload, among, found⟩ := any_eq_true.mp mem
  apply any_eq_true.mpr
  refine ⟨workload, among, ?_⟩
  simp only [Bool.and_eq_true] at found ⊢
  exact ⟨⟨trivial, found.1.2⟩, found.2⟩

theorem Api.Succeeds.sweeps (succeeds : api.Succeeds) : api.sweeps = true := by
  simp [Api.sweeps, succeeds.deletes, succeeds.listsDeployments]

end Members

/-- Network collection is safe and complete exactly if the Deployments account
for every network that a staying workload uses. -/
theorem networksCollected_iff (api : Api) (namesp : Namespace) (name : String) :
    NetworksCollected api namesp name ↔ MembersCounted api namesp name := by
  constructor
  · intro collected
    obtain ⟨kept, reaped⟩ := collected
    constructor
    · intro object among reached member
      have sweeps : api.sweeps = true := by
        simp only [Api.reaches, Bool.and_eq_true] at reached
        exact reached.1.1.1.1
      rw [← hasMember_delete sweeps] at member
      have left := kept object among member
      exact ((mem_delete_networks sweeps).mp left).2 reached
    · intro succeeds noDyn object among managed custom
      have sweeps := succeeds.sweeps
      have left : object ∈ (delete api namesp name).2.networks := by
        apply (mem_delete_networks sweeps).mpr
        refine ⟨among, ?_⟩
        intro reached
        simp [Api.reaches, noDyn, custom] at reached
      rw [← hasMember_delete sweeps]
      exact reaped succeeds object left managed
  · intro counted
    obtain ⟨byDeployment, withoutDyn⟩ := counted
    constructor
    · intro object among member
      cases sweeps : api.sweeps with
      | false =>
        rw [delete_networks_of_not_sweeps sweeps]
        exact among
      | true =>
        rw [hasMember_delete sweeps] at member
        apply (mem_delete_networks sweeps).mpr
        exact ⟨among, fun reached => byDeployment object among reached member⟩
    · intro succeeds object left managed
      have sweeps := succeeds.sweeps
      obtain ⟨among, used⟩ := (mem_delete_networks sweeps).mp left
      rw [hasMember_delete sweeps]
      by_cases custom : object.kind ≠ .networkPolicy ∧ api.dyn = false
      · exact withoutDyn succeeds custom.2 object among managed custom.1
      apply keepsMember_of_deployment
      apply used
      have swept : (object.kind = .networkPolicy || api.dyn) = true := by
        cases dyn : api.dyn with
        | true => simp
        | false =>
          have policy : object.kind = .networkPolicy := by
            apply not_not.mp
            intro other
            exact custom ⟨other, dyn⟩
          simp [policy]
      simp [Api.reaches, sweeps, managed, succeeds.lists, succeeds.removes, swept]

def calmApi : Api where
  dyn := true
  knativeServed := false
  deletes := fun _ => .done
  lingers := fun _ => false
  listsDeployments := true
  lists := fun _ => true
  removes := fun _ => true

/-- The Deployment `web` and the one-shot Job `migrate`, on one network. -/
def frontNamespace (restart : String) : Namespace where
  workloads :=
    [{ name := "web", networks := [{ name := "front" }] },
      { name := "migrate", restart, networks := [{ name := "front" }] }].filterMap
      fun spec => (applyWorkload asciiPlatform {} spec).toOption
  networks := [⟨.networkAttachmentDefinition, "front-2d8d6931", true⟩]

/-- Deleting the Deployment removes the network of the Job. -/
theorem migrate_loses_network : ¬NetworksCollected calmApi (frontNamespace "no") "web" := by
  intro collected
  have left := collected.1 ⟨.networkAttachmentDefinition, "front-2d8d6931", true⟩
    (by decide +kernel) (by decide +kernel)
  exact absurd left (by decide +kernel)

end Cornus.Kubernetes
