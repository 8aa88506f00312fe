import Cornus.Kubernetes.Reapply

/-!
# Re-applying converges while the spec keeps its objects

Before the dependents of a workload are written, the Services and Secrets are
those of others and possibly some that the same workload owns.  Each rule of
`applyDependents` then gives what the spec asks for, laid over what others hold.
-/

namespace Cornus.Kubernetes

open AList Cluster

open Lib Function Option

section Overlay

variable {Body : Type} (base : Dict (Owned Body))

/-- The map holds what is asked for, and otherwise what others hold. -/
def Overlays (asked : String → Option Body) (owner : Owner) (dict : Dict (Owned Body)) : Prop :=
  ∀ name, dict.lookup name = ((asked name).map (⟨·, owner⟩)).or (base.lookup name)

/-- Every object of the map is held by others, or it is the owner's and suits
its name. -/
def Layered (owner : Owner) (suits : String → Body → Prop) (dict : Dict (Owned Body)) : Prop :=
  ∀ name, dict.lookup name = base.lookup name ∨
    base.lookup name = none ∧ ∃ body, dict.lookup name = some ⟨body, owner⟩ ∧ suits name body

variable {base : Dict (Owned Body)} {owner : Owner}

theorem Overlays.layered (overlays : Overlays base asked owner dict)
    (free : ∀ name, (asked name).isSome → base.lookup name = none)
    (suited : ∀ name body, asked name = some body → suits name body) :
    Layered base owner suits dict := by
  intro name
  have shown := overlays name
  cases wanted : asked name with
  | none =>
    rw [wanted] at shown
    exact .inl shown
  | some body =>
    rw [wanted] at shown
    refine .inr ⟨free name (by simp [wanted]), body, shown, ?_⟩
    exact suited name body wanted

theorem Layered.restrict_others (layered : Layered base owner suits dict)
    (others : ∀ name object, base.lookup name = some object → object.owner ≠ owner)
    (name : String) : (dict.restrict fun name =>
      !(dict.lookup name).any (·.owner = owner)).lookup name = base.lookup name := by
  rw [Dict.lookup_restrict]
  rcases layered name with same | ⟨free, body, owned, -⟩
  · rw [same]
    cases held : base.lookup name with
    | none => simp
    | some object => simp [others name object held]
  · rw [owned, free]
    simp

theorem Overlays.view (overlays : Overlays base asked owner dict)
    (mine : ∀ name body, asked name = some body → own ⟨body, owner⟩ = true)
    (theirs : ∀ name object, base.lookup name = some object → own object = false) (name : String) :
    ((dict.lookup name).filter own).map Owned.shown = (asked name).map (·, owner.kind) := by
  rw [overlays name]
  cases wanted : asked name with
  | some body => simp [Option.filter, mine name body wanted, Owned.shown]
  | none =>
    cases held : base.lookup name with
    | none => rfl
    | some object => simp [Option.filter, theirs name object held]

end Overlay

section Services

variable {owner : Owner}

theorem lookup_createAliases (aliases : List (String × ServiceBody))
    (services : Dict (Owned ServiceBody)) (name : String) :
    (createAliases owner aliases services).lookup name =
      (services.lookup name).or ((aliases.lookup name).map (⟨·, owner⟩)) := by
  induction aliases generalizing services with
  | nil => simp [createAliases]
  | cons entry rest ih =>
    obtain ⟨first, body⟩ := entry
    rw [createAliases, List.foldl_cons]
    change (createAliases owner rest _).lookup name = _
    rw [ih]
    by_cases same : name = first
    · subst same
      cases taken : services.lookup name with
      | some object => simp [taken]
      | none => simp
    · have apart : (name == first) = false := by simpa using same
      rw [List.lookup_cons, apart]
      simp only
      split
      · rfl
      · rw [lookup_insert_ne same]

theorem lookup_putService (services : Dict (Owned ServiceBody)) (name : String) :
    (putService owner spec services).lookup name = if name = spec.name ∧ spec.ports ≠ [] then
        some ⟨serviceBody spec ((services.lookup name).any (·.body.headless)), owner⟩
      else services.lookup name := by
  rw [putService]
  by_cases portless : spec.ports = []
  · simp [portless]
  rw [if_neg portless]
  by_cases same : name = spec.name
  · subst same
    simp [portless]
  · simp [same]

theorem aliasServices_headless
    (found : (aliasServices platform spec).lookup name = some body) : body.headless = true := by
  have mem := List.lookup_eq_some_iff.mp found
  obtain ⟨before, after, split, -⟩ := mem
  have among : (name, body) ∈ aliasServices platform spec := by
    rw [split]
    simp
  obtain ⟨net, -, listed⟩ := List.mem_flatMap.mp among
  obtain ⟨aka, -, made⟩ := List.mem_filterMap.mp listed
  simp only at made
  split at made <;> cases made
  rfl

theorem services_overlay {services : Dict (Owned ServiceBody)}
    (layered : Layered base owner (serviceSuits platform spec) services)
    (free : ∀ name, (askedService platform spec name).isSome → base.lookup name = none) :
    Overlays base (askedService platform spec) owner (putService owner spec
        (createAliases owner (aliasServices platform spec) services)) := by
  intro name
  rw [lookup_putService, lookup_createAliases]
  by_cases own : name = spec.name ∧ spec.ports ≠ []
  · have asked : askedService platform spec name = some (serviceBody spec
        ((aliasServices platform spec).lookup name).isSome) := if_pos own
    have unheld := free name (by simp [asked])
    have headless : ((services.lookup name).or
        (((aliasServices platform spec).lookup name).map (⟨·, owner⟩))).any (·.body.headless) =
        ((aliasServices platform spec).lookup name).isSome := by
      rcases layered name with same | ⟨-, body, owned, suits⟩
      · rw [same, unheld]
        cases aka : (aliasServices platform spec).lookup name with
        | none => rfl
        | some body => simp [aliasServices_headless aka]
      · rw [serviceSuits, if_pos own] at suits
        rw [owned, ← suits]
        simp
    rw [if_pos own, headless, asked]
    rfl
  · have asked : askedService platform spec name =
        (aliasServices platform spec).lookup name := if_neg own
    rw [if_neg own, asked]
    rcases layered name with same | ⟨-, body, owned, suits⟩
    · rw [same]
      cases aka : (aliasServices platform spec).lookup name with
      | none => simp
      | some body =>
        rw [free name (by simp [asked, aka])]
        rfl
    · rw [serviceSuits, if_neg own] at suits
      rw [owned, suits]
      rfl

end Services

section Secrets

variable {owner : Owner} {name : String}

/-- The wanted Secrets have different names and are managed for the
deployment. -/
structure WellWanted (name : String) (wanted : List (String × SecretBody)) : Prop where
  distinct : (wanted.map Prod.fst).Nodup
  managed : ∀ entry ∈ wanted, entry.2.managedFor name = true

theorem wantedSecrets_wellWanted {all : List (String × SecretBody)} (well : WellWanted name wanted)
    (made : wantedSecrets name wanted certificates = .ok all) : WellWanted name all := by
  induction certificates generalizing wanted with
  | nil =>
    cases made
    exact well
  | cons certificate rest ih =>
    rw [wantedSecrets] at made
    simp only at made
    split at made
    · cases made
    split at made
    · cases made
    split at made
    · cases made
    rename_i fresh
    refine ih ?_ made
    have absent : trimSpace certificate.secretName ∉ wanted.map Prod.fst := by
      intro mem
      apply fresh
      simpa [List.lookup_isSome_iff] using mem
    constructor
    · rw [List.map_append, List.map_singleton]
      exact List.nodup_append.mpr ⟨well.distinct, List.nodup_singleton _, by
        intro before among after later same
        rw [same, List.mem_singleton.mp later] at among
        exact absent among⟩
    · exact List.forall_mem_append.mpr
        ⟨well.managed, List.forall_mem_singleton.mpr (by simp [SecretBody.managedFor])⟩

theorem WellWanted.tail (well : WellWanted name (entry :: wanted)) :
    WellWanted name wanted ∧ wanted.lookup entry.1 = none ∧ entry.2.managedFor name = true := by
  have distinct := List.nodup_cons.mp well.distinct
  refine ⟨⟨distinct.2, ?_⟩, ?_, well.managed entry List.mem_cons_self⟩
  · intro later mem
    exact well.managed later (List.mem_cons_of_mem _ mem)
  · apply List.lookup_eq_none_iff.mpr
    intro later mem
    simp only [bne_iff_ne, ne_eq]
    intro same
    apply distinct.1
    rw [same]
    exact List.mem_map_of_mem mem

variable {secrets : Dict (Owned SecretBody)}

theorem lookup_putSecrets (well : WellWanted name wanted)
    (put : wanted.foldlM (putSecret owner name) secrets = .ok next) (secret : String) :
    next.lookup secret = ((wanted.lookup secret).map (⟨·, owner⟩)).or (secrets.lookup secret) ∧
      ((wanted.lookup secret).isSome →
        (secrets.lookup secret).all (·.body.managedFor name) = true) := by
  induction wanted generalizing secrets with
  | nil =>
    cases put
    simp
  | cons entry rest ih =>
    obtain ⟨well, later, managed⟩ := well.tail
    rw [List.foldlM_cons] at put
    obtain ⟨middle, first, put⟩ := exists_of_bind_ok put
    rw [putSecret] at first
    split at first <;> cases first
    rename_i ours
    obtain ⟨shown, met⟩ := ih well put
    obtain ⟨head, body⟩ := entry
    by_cases same : secret = head
    · subst same
      rw [later] at shown
      rw [shown]
      simpa using ours
    · have apart : (secret == head) = false := by simpa using same
      rw [lookup_insert_ne same] at shown met
      rw [List.lookup_cons, apart]
      exact ⟨shown, met⟩

theorem putSecrets_total (well : WellWanted name wanted)
    (ours : ∀ secret object, secrets.lookup secret = some object →
      object.body.managedFor name = true) :
    ∃ next, wanted.foldlM (putSecret owner name) secrets = .ok next := by
  induction wanted generalizing secrets with
  | nil => exact ⟨secrets, rfl⟩
  | cons entry rest ih =>
    obtain ⟨well, -, managed⟩ := well.tail
    have first : putSecret owner name secrets entry =
        .ok (secrets.insert entry.1 ⟨entry.2, owner⟩) := by
      apply if_pos
      cases found : secrets.lookup entry.1 with
      | none => rfl
      | some object => simpa using ours entry.1 object found
    rw [List.foldlM_cons, first]
    apply ih well
    intro secret object found
    rcases lookup_insert_eq_some_iff.mp found with ⟨rfl, rfl⟩ | ⟨_, found⟩
    · exact managed
    · exact ours secret object found

/-- The Secret of this name that the spec asks for. -/
def askedSecret (spec : DeploySpec) (secret : String) : Option SecretBody :=
  match (tlsBlock spec).map (wantedSecrets spec.name []) with
  | some (.ok wanted) => wanted.lookup secret
  | _ => none

theorem askedSecret_managed (asked : askedSecret spec secret = some body) :
    body.managedFor spec.name = true ∧ (tlsBlock spec).isSome := by
  rw [askedSecret] at asked
  split at asked
  · rename_i wanted made
    obtain ⟨certificates, block, made⟩ := map_eq_some_iff.mp made
    have well := wantedSecrets_wellWanted ⟨by simp, by simp⟩ made
    obtain ⟨before, after, split, -⟩ := List.lookup_eq_some_iff.mp asked
    refine ⟨well.managed (secret, body) ?_, by simp [block]⟩
    rw [split]
    simp
  · cases asked

theorem secrets_overlay (layered : Layered base owner
      (fun _ body => body.managedFor spec.name = true ∧ (tlsBlock spec).isSome = true) secrets)
    (others : ∀ secret object, base.lookup secret = some object →
      object.body.managedFor spec.name = false)
    (put : applyTlsSecrets owner spec secrets = .ok next) :
    Overlays base (askedSecret spec) owner next ∧ ∀ secret, (askedSecret spec secret).isSome →
        base.lookup secret = none := by
  rw [applyTlsSecrets] at put
  cases block : tlsBlock spec with
  | none =>
    rw [block] at put layered
    cases put
    have nothing : ∀ secret, askedSecret spec secret = none := by
      intro secret
      simp [askedSecret, block]
    refine ⟨?_, fun secret asked => by simp [nothing] at asked⟩
    intro secret
    rw [nothing]
    rcases layered secret with same | ⟨-, body, -, -, impossible⟩
    · exact same
    · cases impossible
  | some certificates =>
    rw [block] at put
    obtain ⟨wanted, made, put⟩ := exists_of_bind_ok put
    obtain ⟨middle, loop, put⟩ := exists_of_bind_ok put
    cases put
    have well := wantedSecrets_wellWanted ⟨by simp, by simp⟩ made
    have asked : ∀ secret, askedSecret spec secret = wanted.lookup secret := by
      intro secret
      simp [askedSecret, block, made]
    have free : ∀ secret, (wanted.lookup secret).isSome → base.lookup secret = none := by
      intro secret isWanted
      have met := (lookup_putSecrets well loop secret).2 isWanted
      rcases layered secret with same | ⟨unheld, -⟩
      · cases held : base.lookup secret with
        | none => rfl
        | some object =>
          rw [same, held] at met
          simp [others secret object held] at met
      · exact unheld
    refine ⟨?_, fun secret => by rw [asked]; exact free secret⟩
    intro secret
    rw [Dict.lookup_restrict, asked, (lookup_putSecrets well loop secret).1]
    cases isWanted : wanted.lookup secret with
    | some body => simp
    | none =>
      rcases layered secret with same | ⟨unheld, body, owned, managed, -⟩
      · rw [same]
        cases held : base.lookup secret with
        | none => simp
        | some object => simp [others secret object held]
      · rw [owned, unheld]
        simp [managed]

end Secrets

section Step

variable {Template Ingress : Type} {base cluster next : Cluster Template Ingress}
    {kind : WorkloadKind}

/-- What a workload of this kind asks for; a Knative Service has no
dependents. -/
def asks {Body : Type} (kind : WorkloadKind) (asked : Option Body) : Option Body :=
  if kind = .knativeService then none else asked

/-- The Ingress that the spec asks for. -/
def askedIngress (builders : Builders Template Ingress) (spec : DeploySpec) : Option Ingress :=
  if ingressEnabled spec.ingress then (builders.ingress spec).toOption else none

/-- The cluster holds what the spec asks for and what others hold. -/
structure Shows (platform : Platform) (builders : Builders Template Ingress)
    (base : Cluster Template Ingress) (spec : DeploySpec) (kind : WorkloadKind)
    (template : Template) (uid : Nat) (cluster : Cluster Template Ingress) : Prop where
  workload : cluster.workload = update (fun _ => none) kind (some ⟨uid, template⟩)
  services : Overlays base.services (fun name => asks kind (askedService platform spec name))
    ⟨kind, spec.name, uid⟩ cluster.services
  freeServices : ∀ name, (asks kind (askedService platform spec name)).isSome →
      base.services.lookup name = none
  secrets : Overlays base.secrets (fun name => asks kind (askedSecret spec name))
    ⟨kind, spec.name, uid⟩ cluster.secrets
  freeSecrets : ∀ name, (asks kind (askedSecret spec name)).isSome → base.secrets.lookup name = none
  ingress : cluster.ingress = (asks kind (askedIngress builders spec)).map
    (⟨·, ⟨kind, spec.name, uid⟩⟩)

/-- The dependents before they are written: those of others, and those of the
workload that suit the spec. -/
structure Ready (platform : Platform) (base : Cluster Template Ingress)
    (spec : DeploySpec) (owner : Owner) (cluster : Cluster Template Ingress) : Prop where
  services : Layered base.services owner (serviceSuits platform spec) cluster.services
  free : ∀ name, (askedService platform spec name).isSome → base.services.lookup name = none
  secrets : Layered base.secrets owner (fun _ body => body.managedFor spec.name = true ∧
      (tlsBlock spec).isSome = true) cluster.secrets
  ingress : cluster.ingress.isSome → ingressEnabled spec.ingress = true

theorem applyDependents_shows (others : base.Foreign spec.name)
    (dependents : kind ≠ .knativeService) (placed : cluster.workload =
      update (fun _ => none) kind (some ⟨uid, template⟩))
    (ready : Ready platform base spec ⟨kind, spec.name, uid⟩ cluster)
    (applied : applyDependents platform builders ⟨kind, spec.name, uid⟩ spec cluster = .ok next) :
    Shows platform builders base spec kind template uid next := by
  have services := services_overlay ready.services ready.free
  rw [applyDependents] at applied
  obtain ⟨secrets, put, applied⟩ := exists_of_bind_ok applied
  obtain ⟨overlay, free⟩ := secrets_overlay ready.secrets
    (fun secret object held => (others.secrets secret object held).2) put
  have askAll : ∀ {Body : Type} (asked : Option Body), asks kind asked = asked :=
    fun asked => if_neg dependents
  have conclude : ∀ ingress, ingress = (askedIngress builders spec).map
        (fun body => (⟨body, ⟨kind, spec.name, uid⟩⟩ : Owned Ingress)) →
      Shows platform builders base spec kind template uid { cluster with
          services := putService ⟨kind, spec.name, uid⟩ spec
            (createAliases ⟨kind, spec.name, uid⟩ (aliasServices platform spec) cluster.services)
          secrets
          ingress } := by
    intro ingress shown
    constructor
    · exact placed
    · simpa only [askAll] using services
    · simpa only [askAll] using ready.free
    · simpa only [askAll] using overlay
    · simpa only [askAll] using free
    · simpa only [askAll] using shown
  split at applied
  · rename_i enabled
    obtain ⟨body, built, applied⟩ := exists_of_bind_ok applied
    cases applied
    apply conclude
    rw [askedIngress, if_pos enabled, built]
    rfl
  · rename_i disabled
    cases applied
    have absent : cluster.ingress = none := by
      cases held : cluster.ingress with
      | none => rfl
      | some ingress => exact absurd (ready.ingress (by simp [held])) disabled
    apply conclude
    rw [askedIngress, if_neg disabled, absent]
    rfl

/-- What an apply of this name may have left of the cluster. -/
def Reached (platform : Platform) (builders : Builders Template Ingress)
    (base : Cluster Template Ingress) (name : String) (cluster : Cluster Template Ingress) : Prop :=
  cluster = base ∨ ∃ spec kind template uid, DeploySpec.name spec = name ∧
    Shows platform builders base spec kind template uid cluster

theorem Shows.running (shows : Shows platform builders base spec kind template uid cluster) :
    cluster.workload kind = some ⟨uid, template⟩ := by
  rw [shows.workload]
  simp

theorem Reached.workload (reached : Reached platform builders base spec.name cluster)
    (chosen : workloadKind caps spec = .ok kind)
    (compatible : Compatible platform caps cluster spec) :
    cluster = base ∨ ∃ previous template uid, previous.name = spec.name ∧
      Shows platform builders base previous kind template uid cluster := by
  rcases reached with same | ⟨previous, before, template, uid, named, shows⟩
  · exact .inl same
  have same := compatible.kind before (shows.running ▸ rfl)
  rw [chosen] at same
  cases same
  exact .inr ⟨previous, template, uid, named, shows⟩

theorem Compatible.free_of_reached (compatible : Compatible platform caps cluster spec)
    (others : base.Foreign spec.name) (chosen : workloadKind caps spec = .ok kind)
    (dependents : kind ≠ .knativeService)
    (kept : ∀ name object, base.services.lookup name = some object →
      cluster.services.lookup name = some object) (name : String)
    (asked : (askedService platform spec name).isSome) : base.services.lookup name = none := by
  cases held : base.services.lookup name with
  | none => rfl
  | some object =>
    have owned := compatible.free (by simpa [chosen] using dependents) name object
      (kept name object held) asked
    exact absurd owned (others.services name object held)

theorem Shows.services_kept (shows : Shows platform builders base spec kind template uid cluster)
    (held : base.services.lookup name = some object) :
    cluster.services.lookup name = some object := by
  have shown := shows.services name
  cases asked : asks kind (askedService platform spec name) with
  | none =>
    simp only [asked] at shown
    rw [shown]
    exact held
  | some body =>
    rw [shows.freeServices name (by simp [asked])] at held
    cases held

theorem ready_of_same (services : ∀ name, cluster.services.lookup name = base.services.lookup name)
    (secrets : ∀ name, cluster.secrets.lookup name = base.secrets.lookup name)
    (ingress : cluster.ingress = none) (free : ∀ name, (askedService platform spec name).isSome →
      base.services.lookup name = none) : Ready platform base spec owner cluster where
  services name := .inl (services name)
  free
  secrets name := .inl (secrets name)
  ingress := by simp [ingress]

theorem Compatible.ready_of_shows
    (compatible : Compatible platform caps cluster spec) (others : base.Foreign spec.name)
    (chosen : workloadKind caps spec = .ok .deployment) (named : previous.name = spec.name)
    (shows : Shows platform builders base previous .deployment template uid cluster) :
    Ready platform base spec ⟨.deployment, spec.name, uid⟩ cluster := by
  rw [← named]
  constructor
  · apply shows.services.layered shows.freeServices
    intro name body asked
    have held := shows.services name
    simp only [asked] at held
    exact compatible.services chosen name _ held named
  · exact compatible.free_of_reached others chosen nofun fun _ _ held => shows.services_kept held
  · apply shows.secrets.layered shows.freeSecrets
    intro name body asked
    have held := shows.secrets name
    simp only [asked] at held
    have managed : body.managedFor spec.name = true := by
      rw [← named]
      exact (askedSecret_managed asked).1
    exact ⟨managed, compatible.secrets chosen name _ held managed⟩
  · exact compatible.ingress chosen

section

variable {builders : Builders Template Ingress}
  (reached : Reached platform builders base spec.name cluster) (others : base.Foreign spec.name)
  (compatible : Compatible platform caps cluster spec)
include reached others compatible

theorem applyKnativeService_shows (chosen : workloadKind caps spec = .ok .knativeService) :
    ∃ uid, Shows platform builders base spec .knativeService template uid
      (applyKnativeService template cluster) := by
  rcases reached.workload chosen compatible with
    same | ⟨previous, before, uid, named, shows⟩
  · subst same
    refine ⟨cluster.uids, ?_⟩
    rw [applyKnativeService, Cluster.update, others.workload]
    constructor
    · funext kind
      simp only [create, update_apply, others.workload]
    · intro name
      rfl
    · intro name asked
      cases asked
    · intro name
      rfl
    · intro name asked
      cases asked
    · exact others.ingress
  · refine ⟨uid, ?_⟩
    rw [applyKnativeService, Cluster.update, shows.running]
    constructor
    · simp only [shows.workload, update_idem]
    · intro name
      exact shows.services name
    · intro name asked
      cases asked
    · intro name
      exact shows.secrets name
    · intro name asked
      cases asked
    · exact shows.ingress

theorem applyJob_shows (chosen : workloadKind caps spec = .ok .job)
    (applied : applyJob platform builders template spec cluster = .ok next) :
    ∃ uid, Shows platform builders base spec .job template uid next := by
  -- The old Job takes every dependent of the deployment with it.
  have cleared : (cluster.deleteJob spec.name).workload = (fun _ => none) ∧
      (∀ owner, Ready platform base spec owner (cluster.deleteJob spec.name)) := by
    rcases reached.workload chosen compatible with
      same | ⟨previous, before, uid, named, shows⟩
    · subst same
      have absent := others.workload .job
      rw [deleteJob, absent]
      refine ⟨funext others.workload, fun owner => ?_⟩
      exact ready_of_same (fun _ => rfl) (fun _ => rfl) others.ingress
        (compatible.free_of_reached others chosen nofun fun _ _ held => held)
    · have free := compatible.free_of_reached others chosen nofun
        fun _ _ held => shows.services_kept held
      have foreign : ∀ {owner : Owner}, owner.name ≠ spec.name →
          owner ≠ ⟨.job, spec.name, uid⟩ := by
        intro owner other same
        rw [same] at other
        exact other rfl
      rw [deleteJob, shows.running]
      constructor
      · simp only [shows.workload, update_idem]
        exact update_eq_self _ _
      · intro owner
        refine ready_of_same ?_ ?_ ?_ free
        · have layered : Layered base.services ⟨.job, previous.name, uid⟩
              (fun _ _ => True) cluster.services :=
            shows.services.layered shows.freeServices fun _ _ _ => trivial
          rw [named] at layered
          apply layered.restrict_others
          intro name object held
          exact foreign (others.services name object held)
        · have layered : Layered base.secrets ⟨.job, previous.name, uid⟩
              (fun _ _ => True) cluster.secrets :=
            shows.secrets.layered shows.freeSecrets fun _ _ _ => trivial
          rw [named] at layered
          apply layered.restrict_others
          intro name object held
          exact foreign (others.secrets name object held).1
        · simp only [shows.ingress, named]
          cases asks WorkloadKind.job (askedIngress builders previous) with
          | none => rfl
          | some body => simp
  refine ⟨(cluster.deleteJob spec.name).uids, ?_⟩
  rw [applyJob] at applied
  have placed : ((cluster.deleteJob spec.name).create .job template).workload =
      update (fun _ => none) .job (some ⟨(cluster.deleteJob spec.name).uids, template⟩) := by
    rw [create, cleared.1]
  have owner : ((cluster.deleteJob spec.name).create .job template).ownerOf .job
      spec.name = ⟨.job, spec.name, (cluster.deleteJob spec.name).uids⟩ := by
    simp [ownerOf, placed]
  simp only [owner] at applied
  have ready := cleared.2 ⟨.job, spec.name, (cluster.deleteJob spec.name).uids⟩
  exact applyDependents_shows others (by simp) placed
    { ready with } applied

theorem applyDeployment_shows (chosen : workloadKind caps spec = .ok .deployment)
    (applied : applyDeployment platform builders template spec cluster = .ok next) :
    ∃ uid, Shows platform builders base spec .deployment template uid next := by
  have conclude : ∀ uid, (cluster.update .deployment template).workload =
        update (fun _ => none) .deployment (some ⟨uid, template⟩) →
      Ready platform base spec ⟨.deployment, spec.name, uid⟩ (cluster.update .deployment template) →
      ∃ uid, Shows platform builders base spec .deployment template uid next := by
    intro uid placed ready
    have owner : (cluster.update .deployment template).ownerOf .deployment
        spec.name = ⟨.deployment, spec.name, uid⟩ := by
      simp [ownerOf, placed]
    rw [applyDeployment] at applied
    simp only [owner] at applied
    exact ⟨uid, applyDependents_shows others (by simp) placed ready applied⟩
  rcases reached.workload chosen compatible with
    same | ⟨previous, before, uid, named, shows⟩
  · subst same
    apply conclude cluster.uids
    · rw [Cluster.update, others.workload]
      simp only [create, funext others.workload]
    · rw [Cluster.update, others.workload]
      exact ready_of_same (fun _ => rfl) (fun _ => rfl) others.ingress
        (compatible.free_of_reached others chosen nofun fun _ _ held => held)
  · have ready := compatible.ready_of_shows others chosen named shows
    apply conclude uid
    · rw [Cluster.update, shows.running]
      simp only [shows.workload, update_idem]
    · rw [Cluster.update, shows.running]
      exact { ready with }

theorem apply_shows (applied : apply platform builders caps cluster spec = .ok next) :
    ∃ kind template uid, workloadKind caps spec = .ok kind ∧
      builders.template kind spec = .ok template ∧
      Shows platform builders base spec kind template uid next := by
  obtain ⟨kind, chosen, applied⟩ := exists_of_bind_ok applied
  obtain ⟨template, built, applied⟩ := exists_of_bind_ok applied
  have shows : ∃ uid, Shows platform builders base spec kind template uid next := by
    cases kind with
    | knativeService =>
      cases applied
      exact applyKnativeService_shows reached others compatible chosen
    | job => exact applyJob_shows reached others compatible chosen applied
    | deployment => exact applyDeployment_shows reached others compatible chosen applied
  obtain ⟨uid, shows⟩ := shows
  exact ⟨kind, template, uid, chosen, built, shows⟩

end

/-- What the spec asks to be seen. -/
def askedView (platform : Platform) (builders : Builders Template Ingress)
    (spec : DeploySpec) (kind : WorkloadKind) (template : Template) : View Template Ingress where
  workload := update (fun _ => none) kind (some template)
  services name := (asks kind (askedService platform spec name)).map (·, kind)
  secrets name := (asks kind (askedSecret spec name)).map (·, kind)
  ingress := (asks kind (askedIngress builders spec)).map (·, kind)

theorem Shows.view (others : base.Foreign spec.name)
    (shows : Shows platform builders base spec kind template uid cluster) :
    cluster.view spec.name = askedView platform builders spec kind template := by
  have workload : (cluster.view spec.name).workload =
      update (fun _ => none) kind (some template) := by
    funext other
    simp only [Cluster.view, shows.workload, update_apply]
    split <;> rfl
  have services : ∀ name, (cluster.view spec.name).services name =
      (asks kind (askedService platform spec name)).map (·, kind) := by
    intro name
    apply shows.services.view
    · intro other body asked
      simp
    · intro other object held
      simpa using others.services other object held
  have secrets : ∀ name, (cluster.view spec.name).secrets name =
      (asks kind (askedSecret spec name)).map (·, kind) := by
    intro name
    apply shows.secrets.view
    · intro other body asked
      rw [asks] at asked
      split at asked
      · cases asked
      · exact (askedSecret_managed asked).1
    · intro other object held
      exact (others.secrets other object held).2
  have ingress : (cluster.view spec.name).ingress =
      (asks kind (askedIngress builders spec)).map (·, kind) := by
    simp only [Cluster.view, shows.ingress, map_map]
    rfl
  rw [askedView, ← workload, ← funext services, ← funext secrets, ← ingress]

theorem foreign_empty (name : String) : ({} : Cluster Template Ingress).Foreign name where
  workload _ := rfl
  services _ _ held := by cases held
  secrets _ _ held := by cases held
  ingress := rfl

theorem compatible_empty : Compatible platform caps ({} : Cluster Template Ingress) spec where
  kind _ present := by cases present
  free _ _ _ held := by cases held
  services _ _ _ held := by cases held
  secrets _ _ _ held := by cases held
  ingress _ present := by cases present

variable {owner other : Owner}

theorem applyTlsSecrets_empty {secrets : Dict (Owned SecretBody)}
    (applied : applyTlsSecrets owner spec secrets = .ok left) :
    ∃ fresh, applyTlsSecrets other spec ∅ = .ok fresh := by
  rw [applyTlsSecrets] at applied ⊢
  cases block : tlsBlock spec with
  | none => exact ⟨∅, rfl⟩
  | some certificates =>
    rw [block] at applied
    obtain ⟨wanted, made, -⟩ := exists_of_bind_ok applied
    have well := wantedSecrets_wellWanted ⟨by simp, by simp⟩ made
    have total : ∃ fresh, wanted.foldlM (putSecret other spec.name) ∅ = .ok fresh :=
      putSecrets_total well fun _ _ held => by cases held
    obtain ⟨fresh, put⟩ := total
    refine ⟨fresh.restrict fun secret => (wanted.lookup secret).isSome ||
      !(fresh.lookup secret).any (·.body.managedFor spec.name), ?_⟩
    simp only [bind_of_ok made, bind_of_ok put]
    rfl

theorem applyDependents_empty (bare : fresh.secrets = ∅)
    (applied : applyDependents platform builders owner spec cluster = .ok next) :
    ∃ left, applyDependents platform builders other spec fresh = .ok left := by
  rw [applyDependents] at applied ⊢
  obtain ⟨secrets, put, applied⟩ := exists_of_bind_ok applied
  have empty : ∃ own, applyTlsSecrets other spec ∅ = .ok own := applyTlsSecrets_empty put
  obtain ⟨own, putOwn⟩ := empty
  rw [bare, bind_of_ok putOwn]
  split at applied
  · rename_i enabled
    obtain ⟨body, built, -⟩ := exists_of_bind_ok applied
    rw [if_pos enabled, bind_of_ok built]
    exact ⟨_, rfl⟩
  · rename_i disabled
    rw [if_neg disabled]
    exact ⟨_, rfl⟩

theorem apply_empty (applied : apply platform builders caps cluster spec = .ok next) :
    ∃ fresh, apply platform builders caps {} spec = .ok fresh := by
  obtain ⟨kind, chosen, applied⟩ := exists_of_bind_ok applied
  obtain ⟨template, built, applied⟩ := exists_of_bind_ok applied
  have fresh : ∃ fresh, applyKind platform builders kind template spec {} = .ok fresh := by
    cases kind with
    | knativeService => exact ⟨_, rfl⟩
    | job | deployment => exact applyDependents_empty rfl applied
  obtain ⟨fresh, made⟩ := fresh
  refine ⟨fresh, ?_⟩
  rw [apply, bind_of_ok chosen, bind_of_ok built]
  exact made

theorem apply_of_step (taken : applyStep platform builders caps cluster spec = some next) :
    apply platform builders caps cluster spec = .ok next := by
  rw [applyStep] at taken
  cases outcome : apply platform builders caps cluster spec with
  | error refusal =>
    rw [outcome] at taken
    cases taken
  | ok left =>
    rw [outcome] at taken
    cases taken
    rfl

/-- In every run of applies that keep the kind of the workload and, for a
Deployment, its dependents, the last spec decides the objects. -/
theorem reapplies_converge (platform : Platform)
    (builders : Builders Template Ingress) (caps : Capabilities) :
    ReappliesConverge platform builders caps (Compatible platform caps) := by
  intro name base specs spec cluster others along reached
  obtain ⟨before, last⟩ := along.append
  rw [run_append] at reached
  obtain ⟨middle, taken, reached⟩ := bind_eq_some_iff.mp reached
  obtain ⟨⟨named, compatible⟩, -⟩ := last middle taken
  subst named
  have stepped : apply platform builders caps middle spec = .ok cluster := by
    simp only [run, bind_eq_some_iff] at reached
    obtain ⟨next, applied, same⟩ := reached
    cases same
    exact apply_of_step applied
  have invariant : Reached platform builders base spec.name middle := by
    refine run_invariant ?_ (.inl rfl) before taken
    intro state event next held allowed applied
    obtain ⟨named, compatible⟩ := allowed
    rw [← named] at held others
    obtain ⟨kind, template, uid, -, -, shows⟩ :=
      apply_shows held others compatible (apply_of_step applied)
    exact .inr ⟨event, kind, template, uid, named, shows⟩
  obtain ⟨kind, template, uid, chosen, built, shows⟩ :=
    apply_shows invariant others compatible stepped
  obtain ⟨fresh, made⟩ := apply_empty stepped
  obtain ⟨freshKind, freshTemplate, freshUid, freshChosen, freshBuilt,
    freshShows⟩ := apply_shows (.inl rfl) (foreign_empty spec.name) compatible_empty made
  rw [chosen] at freshChosen
  cases freshChosen
  rw [built] at freshBuilt
  cases freshBuilt
  refine ⟨fresh, made, ?_⟩
  rw [shows.view others, freshShows.view (foreign_empty spec.name)]

end Step

/-- Templates and ingresses by their names. -/
def plainBuilders : Builders String String where
  template _ spec := .ok spec.rest
  ingress spec := .ok spec.name

/-- A service with a port and an Ingress, in two releases. -/
def webSpec (release : String) : DeploySpec where
  name := "web"
  rest := release
  ports := [{ container := 80 }]
  ingress := some { hosts := ["web.example"] }

/-- The cluster after the first release. -/
def firstRelease : Cluster String String :=
  (applyStep asciiPlatform plainBuilders {} {} (webSpec "v1")).getD {}

theorem firstRelease_compatible : Compatible asciiPlatform {} firstRelease (webSpec "v2") := by
  have chosen : workloadKind {} (webSpec "v2") = .ok .deployment := by
    decide +kernel
  have only : firstRelease.services.entries =
      [⟨"web", ⟨serviceBody (webSpec "v1") false, ⟨.deployment, "web", 0⟩⟩⟩] := by
    decide +kernel
  have none_ : firstRelease.secrets.entries = [] := by
    decide +kernel
  have service : ∀ name object, firstRelease.services.lookup name = some object → name = "web" ∧
        object = ⟨serviceBody (webSpec "v1") false, ⟨.deployment, "web", 0⟩⟩ := by
    intro name object held
    have among := mem_lookup_iff.mp held
    rw [only, List.mem_singleton] at among
    cases among
    exact ⟨rfl, rfl⟩
  constructor
  · intro kind present
    cases kind with
    | deployment => exact chosen
    | job => cases present
    | knativeService => cases present
  · intro _ name object held _
    obtain ⟨-, rfl⟩ := service name object held
    rfl
  · intro _ name object held _
    obtain ⟨rfl, rfl⟩ := service name object held
    exact rfl
  · intro _ name object held
    have among := mem_lookup_iff.mp held
    rw [none_] at among
    cases among
  · intro _ _
    rfl

/-- The second release of a service replaces the first. -/
theorem secondRelease_converges : ∃ cluster fresh, run (applyStep asciiPlatform plainBuilders {}) {}
        [webSpec "v1", webSpec "v2"] = some cluster ∧
      apply asciiPlatform plainBuilders {} {} (webSpec "v2") = .ok fresh ∧
      cluster.view "web" = fresh.view "web" := by
  have first : applyStep asciiPlatform plainBuilders {} {} (webSpec "v1") = some firstRelease := by
    obtain ⟨cluster, made⟩ := isSome_iff_exists.mp (show
      (applyStep asciiPlatform plainBuilders {} {} (webSpec "v1")).isSome by
        decide +kernel)
    rw [firstRelease, made]
    rfl
  obtain ⟨cluster, second⟩ := isSome_iff_exists.mp (show
    (applyStep asciiPlatform plainBuilders {} firstRelease (webSpec "v2")).isSome by decide +kernel)
  have reached : run (applyStep asciiPlatform plainBuilders {}) {}
      [webSpec "v1", webSpec "v2"] = some cluster := by
    simp only [run, first, second, bind_some]
  have along : Along (applyStep asciiPlatform plainBuilders {})
      (fun cluster spec => spec.name = "web" ∧ Compatible asciiPlatform {} cluster spec) {}
      ([webSpec "v1"] ++ [webSpec "v2"]) := by
    refine ⟨⟨rfl, compatible_empty⟩, ?_⟩
    intro next taken
    rw [first] at taken
    cases taken
    exact ⟨⟨rfl, firstRelease_compatible⟩, fun _ _ => trivial⟩
  obtain ⟨fresh, made, same⟩ := reapplies_converge asciiPlatform plainBuilders {}
    "web" {} [webSpec "v1"] (webSpec "v2") cluster (foreign_empty _) along reached
  exact ⟨cluster, fresh, reached, made, same⟩

/-- Applying a one-shot spec leaves the Deployment of the spec before it. -/
theorem oneShot_leaves_deployment :
    ¬ReappliesConverge asciiPlatform plainBuilders {} (fun _ _ => True) := by
  intro converges
  let oneShot : DeploySpec := { webSpec "v2" with restart := "no" }
  obtain ⟨cluster, reached⟩ := isSome_iff_exists.mp (show
    (run (applyStep asciiPlatform plainBuilders {}) {}
      [webSpec "v1", oneShot]).isSome by decide +kernel)
  have along : Along (applyStep asciiPlatform plainBuilders {})
      (fun _ spec => spec.name = "web" ∧ True) {} ([webSpec "v1"] ++ [oneShot]) :=
    ⟨⟨rfl, trivial⟩, fun _ _ => ⟨⟨rfl, trivial⟩, fun _ _ => trivial⟩⟩
  obtain ⟨fresh, made, same⟩ := converges "web" {} [webSpec "v1"] oneShot cluster
    (foreign_empty _) along reached
  have served : ((run (applyStep asciiPlatform plainBuilders {}) {} [webSpec "v1", oneShot]).bind
        fun cluster => (cluster.view "web").workload .deployment) = some "v1" := by
    decide +kernel
  have unserved : ((apply asciiPlatform plainBuilders {} {} oneShot).toOption.bind
      fun cluster => (cluster.view "web").workload .deployment) = none := by
    decide +kernel
  rw [reached] at served
  rw [made] at unserved
  have runs : (cluster.view "web").workload .deployment = some "v1" := served
  rw [same] at runs
  have absent : (fresh.view "web").workload .deployment = none := unserved
  rw [runs] at absent
  cases absent

end Cornus.Kubernetes
