import Cornus.Compose.Plan
import Cornus.Lib.Attempt

/-!
# Planning through a profile view

`selected` rebuilds the project without its credentials and shells blocks.  A
plan made through a view therefore agrees with the plan of the project
restricted to the selected services exactly when those two blocks are idle, or
when planning fails for a reason of its own.
-/

namespace Cornus.Compose

open Dict ServicePlan

/-- Both plans fail, or both succeed and give every service the same plan. -/
def SamePlans : Except String (Dict ServicePlan) → Except String (Dict ServicePlan) → Prop
  | .ok plans, .ok others => ∀ name, plans.lookup name = others.lookup name
  | .error _, .error _ => True
  | .ok _, .error _ => False
  | .error _, .ok _ => False

/-- The project with all its project-level blocks, restricted to the services
of a view. -/
def ProjectProfileView.restricted (view : ProjectProfileView) : Project :=
  { view.project with services := view.services }

variable (lib : Runtime) (project : Project)

/-- Planning through the view of a profile list gives what planning the
restricted project gives; without profiles that is the project itself. -/
def Project.ViewKeepsPlans (profiles : List String) (projectName : String) : Prop :=
  SamePlans ((project.view profiles).plan lib projectName)
      ((project.view profiles).restricted.plan lib projectName) ∧
    (project.gated = false →
      SamePlans ((project.view profiles).plan lib projectName) (project.plan lib projectName))

variable {Block Spec : Type}

/-- A block that is present and does not pass its own translation. -/
def Rejected (translate : Block → Except String Spec) (block : Option Block) : Prop :=
  ∃ given cause, block = some given ∧ translate given = .error cause

/-- Planning fails, whatever the credentials and shells blocks are: a service is
not translatable, another project-level block is rejected, or the static
addresses of the translated services cannot be allocated. -/
def Project.Blocked (projectName : String) : Prop :=
  (∃ cause, project.translateServices lib projectName = .error cause) ∨
    Rejected (translateEgress lib) project.egress ∨
    Rejected (translateTelemetry lib) project.telemetry ∨
    Rejected (translateIngress lib) project.ingress ∨
    ∃ plans cause, project.translateServices lib projectName = .ok plans ∧
      userNetIPs lib (plans.mapVals fun _ plan => plan.netFacts) = .error cause

/-- The service names credentials of its own. -/
def Service.OwnCredentials (svc : Service) : Prop :=
  svc.provider = none ∧ ∃ own, svc.credentials = some own ∧ own.sources ≠ []

/-- The service names shells of its own. -/
def Service.OwnShells (svc : Service) : Prop :=
  svc.provider = none ∧ svc.shells ≠ []

/-- No service inherits the project's credentials: the block is absent or
without sources, or it is valid and every service has its own. -/
def Project.CredentialsIdle : Prop :=
  ∀ block, project.credentials = some block → block.sources ≠ [] →
    (∃ spec, translateCredentials lib (some block) = .ok spec) ∧
      ∀ name svc, project.services.lookup name = some svc → svc.OwnCredentials

/-- No service would inherit the project's shells. -/
def Project.ShellsIdle : Prop :=
  project.shells ≠ [] → ∀ name svc, project.services.lookup name = some svc → svc.OwnShells

/-- The plan with what it inherits. -/
def ServicePlan.inherit (credentials : Option Credentials)
    (shells : List String) (plan : ServicePlan) : ServicePlan :=
  (plan.setCredentials (plan.spec.credentials.or credentials)).setShells
    (if plan.shells = [] then shells else plan.shells)

variable (plan : ServicePlan)

/-- What a plan may inherit. -/
def ServicePlan.inheritable : Option Credentials × List String :=
  (plan.spec.credentials, plan.shells)

theorem inherit_noShells (shared : Option Credentials) (plan : ServicePlan) :
    plan.inherit shared [] = plan.setCredentials (plan.spec.credentials.or shared) := by
  have kept : (if plan.shells = [] then [] else plan.shells) = plan.shells :=
    ite_eq_right_iff.mpr Eq.symm
  rw [inherit, kept]
  rfl

theorem inherit_nothing : plan.inherit none [] = plan := by
  rw [inherit_noShells, Option.or_none]
  rfl

theorem inherit_eq_self_iff {credentials : Option Credentials} {shells : List String}
    {plan : ServicePlan} :
    plan.inherit credentials shells = plan ↔ (plan.spec.credentials = none → credentials = none) ∧
        (plan.shells = [] → shells = []) := by
  constructor
  · intro same
    constructor
    · intro missing
      have field := congrArg (fun plan => plan.spec.credentials) same
      change plan.spec.credentials.or credentials = _ at field
      rw [missing] at field
      exact field
    · intro missing
      have field := congrArg (fun plan => plan.shells) same
      change (if plan.shells = [] then shells else plan.shells) = _ at field
      rw [if_pos missing, missing] at field
      exact field
  · rintro ⟨noCredentials, noShells⟩
    have first : plan.spec.credentials.or credentials = plan.spec.credentials := by
      cases own : plan.spec.credentials with
      | none => exact noCredentials own
      | some given => rfl
    have second : (if plan.shells = [] then shells else plan.shells) = plan.shells := by
      apply ite_eq_right_iff.mpr
      intro missing
      rw [noShells missing, missing]
    rw [inherit, first, second]
    rfl

section Passes

variable {lib : Runtime} {project : Project} {name : String} {svc : Service} {plan : ServicePlan}

theorem inheritBlock_keeps {Block Spec Part : Type} {block : Option Block} {label : String}
    {translate : Block → Except String Spec} {fill : Spec → ServicePlan → ServicePlan}
    {others : Dict ServicePlan} (part : ServicePlan → Part)
    (done : inheritBlock block label translate missing fill plans = .ok others)
    (untouched : ∀ spec plan, part (fill spec plan) = part plan) :
    others.mapVals (fun _ plan => part plan) = plans.mapVals fun _ plan => part plan := by
  unfold inheritBlock at done
  split at done
  · cases done
    rfl
  · split at done <;> cases done
    rw [mapVals_mapVals]
    apply mapVals_congr
    intro _ plan
    split
    · exact untouched _ plan
    · rfl

theorem inheritBlock_commutes (block : Option Block) (label : String)
    (translate : Block → Except String Spec)
    (change : ServicePlan → ServicePlan) (unseen : ∀ plan, missing (change plan) = missing plan)
    (apart : ∀ spec plan, fill spec (change plan) = change (fill spec plan))
    (plans : Dict ServicePlan) :
    inheritBlock block label translate missing fill (plans.mapVals fun _ plan => change plan) =
      (inheritBlock block label translate missing fill plans).map
        (mapVals fun _ plan => change plan) := by
  unfold inheritBlock
  cases block with
  | none => rfl
  | some block =>
    cases checked : inField label (translate block) with
    | error cause => simp only [checked, Except.map]
    | ok spec =>
      simp only [checked, Except.map, mapVals_mapVals]
      congr 1
      apply mapVals_congr
      intro _ plan
      rw [unseen]
      split
      · exact apart spec plan
      · rfl

theorem inheritBlock_error_iff {block : Option Block}
    {label : String} {translate : Block → Except String Spec}
    {missing : ServicePlan → Bool} {fill : Spec → ServicePlan → ServicePlan}
    {plans : Dict ServicePlan} : (∃ cause, inheritBlock block label translate missing fill plans =
      .error cause) ↔ Rejected translate block := by
  unfold inheritBlock Rejected
  cases block with
  | none =>
    constructor
    · rintro ⟨cause, done⟩
      cases done
    · rintro ⟨given, cause, present, _⟩
      cases present
  | some block =>
    cases translated : translate block with
    | error cause =>
      constructor
      · intro _
        exact ⟨block, cause, rfl, translated⟩
      · intro _
        simp only [translated, inField]
        exact ⟨_, rfl⟩
    | ok spec =>
      constructor
      · rintro ⟨cause, done⟩
        simp only [translated, inField] at done
        cases done
      · rintro ⟨given, cause, present, rejected⟩
        cases present
        rw [translated] at rejected
        cases rejected

variable (lib)

variable (project)

/-- The passes before the two that the view drops. -/
def Project.commonPlans (projectName : String) : Except String (Dict ServicePlan) := do
  let plans ← project.translateServices lib projectName
  let plans ← project.egressDefaults lib plans
  project.telemetryDefaults lib plans

/-- The passes behind them. -/
def Project.finishPlans (plans : Dict ServicePlan) : Except String (Dict ServicePlan) := do
  let plans ← project.ingressDefaults lib plans
  applyUserNetIPs lib (project.applyProxyPolicy plans)

/-- The project's credentials, translated. -/
def Project.sharedCredentials : Except String (Option Credentials) :=
  match project.credentials with
  | none => .ok none
  | some block =>
    inField "project credentials" (translateCredentials lib (some block))

variable {project}

variable {lib}

variable (plans)

theorem credentialsDefaults_eq :
    project.credentialsDefaults lib plans = (project.sharedCredentials lib).map fun shared =>
        plans.mapVals fun _ plan => plan.inherit shared [] := by
  unfold Project.credentialsDefaults Project.sharedCredentials inheritBlock
  cases project.credentials with
  | none =>
    simp only [Except.map, inherit_nothing, mapVals_id]
  | some block =>
    cases checked : inField "project credentials" (translateCredentials lib (some block)) with
    | error cause => simp only [checked, Except.map]
    | ok shared =>
      simp only [checked, Except.map]
      congr 1
      apply mapVals_congr
      intro _ plan
      rw [inherit_noShells]
      split
      · rename_i missing
        rw [Option.isNone_iff_eq_none.mp missing]
        rfl
      · rename_i present
        cases own : plan.spec.credentials with
        | none =>
          rw [own] at present
          exact absurd rfl present
        | some given =>
          rw [Option.some_or, ← own]
          rfl

theorem shellDefaults_eq : project.shellDefaults plans =
      plans.mapVals fun _ plan => plan.inherit none project.shells := by
  unfold Project.shellDefaults
  split
  · rename_i empty
    simp only [empty, inherit_nothing, mapVals_id]
  · apply mapVals_congr
    intro _ plan
    rw [inherit, Option.or_none]
    split <;> rfl

variable {plans}

theorem plan_eq (projectName : String) : project.plan lib projectName =
      (project.commonPlans lib projectName >>= fun plans =>
        project.sharedCredentials lib >>= fun shared =>
          project.finishPlans lib (plans.mapVals fun _ plan =>
            plan.inherit shared project.shells)) := by
  have combined : ∀ (shared : Option Credentials) (plan : ServicePlan),
      (plan.inherit shared []).inherit none project.shells =
        plan.inherit shared project.shells := by
    intro shared plan
    rw [inherit_noShells]
    unfold inherit
    rw [Option.or_none]
    rfl
  unfold Project.plan Project.commonPlans Project.finishPlans
  simp only [credentialsDefaults_eq, shellDefaults_eq, bind_assoc]
  congr 1
  funext plans
  congr 1
  funext plans
  congr 1
  funext plans
  cases project.sharedCredentials lib with
  | error cause => rfl
  | ok shared =>
    simp only [Except.map, bind, Except.bind, mapVals_mapVals, combined]

section

variable (credentials : Option Credentials)
include credentials

variable (shells : List String)

theorem ingressDefaults_commutes (plans : Dict ServicePlan) :
    project.ingressDefaults lib (plans.mapVals fun _ plan => plan.inherit credentials shells) =
      (project.ingressDefaults lib plans).map
        (mapVals fun _ plan => plan.inherit credentials shells) := by
  unfold Project.ingressDefaults
  apply inheritBlock_commutes
  · intro plan
    rfl
  · intro spec plan
    rfl

theorem applyProxyPolicy_commutes (plans : Dict ServicePlan) :
    project.applyProxyPolicy (plans.mapVals fun _ plan => plan.inherit credentials shells) =
      (project.applyProxyPolicy plans).mapVals fun _ plan => plan.inherit credentials shells := by
  simp only [Project.applyProxyPolicy, mapVals_mapVals]
  apply mapVals_congr
  intro name plan
  cases proxySpec project.services project.networks name <;> rfl

theorem applyUserNetIPs_commutes (plans : Dict ServicePlan) :
    applyUserNetIPs lib (plans.mapVals fun _ plan => plan.inherit credentials shells) =
      (applyUserNetIPs lib plans).map (mapVals fun _ plan => plan.inherit credentials shells) := by
  have facts : (plans.mapVals fun _ plan =>
        plan.inherit credentials shells).mapVals (fun _ plan => plan.netFacts) =
      plans.mapVals fun _ plan => plan.netFacts :=
    mapVals_mapVals _ _ _
  unfold applyUserNetIPs
  rw [facts]
  cases userNetIPs lib (plans.mapVals fun _ plan => plan.netFacts) with
  | error cause => rfl
  | ok results =>
    simp only [bind, Except.bind, pure, Except.pure, Except.map, mapVals_mapVals]
    congr 1
    apply mapVals_congr
    intro name plan
    cases AList.lookup name results <;> rfl

theorem finishPlans_commutes (plans : Dict ServicePlan) :
    project.finishPlans lib (plans.mapVals fun _ plan => plan.inherit credentials shells) =
      (project.finishPlans lib plans).map
        (mapVals fun _ plan => plan.inherit credentials shells) := by
  unfold Project.finishPlans
  rw [ingressDefaults_commutes]
  cases project.ingressDefaults lib plans with
  | error cause => rfl
  | ok filled =>
    change applyUserNetIPs lib (project.applyProxyPolicy
      (filled.mapVals fun _ plan => plan.inherit credentials shells)) = _
    rw [applyProxyPolicy_commutes, applyUserNetIPs_commutes]
    rfl

end

theorem applyProxyPolicy_keeps {Part : Type} (part : ServicePlan → Part)
    (untouched : ∀ plan proxy, part (plan.setProxy proxy) = part plan) (plans : Dict ServicePlan) :
    (project.applyProxyPolicy plans).mapVals (fun _ plan => part plan) =
      plans.mapVals fun _ plan => part plan := by
  rw [Project.applyProxyPolicy, mapVals_mapVals]
  apply mapVals_congr
  intro name plan
  exact untouched plan _

variable (plan)

theorem netFacts_setProxy (proxy : Option Api.ProxySpec) :
    (plan.setProxy proxy).netFacts = plan.netFacts := by
  cases proxy <;> rfl

theorem inheritable_setProxy (proxy : Option Api.ProxySpec) :
    (plan.setProxy proxy).inheritable = plan.inheritable := by
  cases proxy <;> rfl

theorem inheritable_setNet (result : Option NetResult) :
    (plan.setNet result).inheritable = plan.inheritable := by
  cases result <;> rfl

variable {plan}

theorem commonPlans_ok (done : project.commonPlans lib projectName = .ok plans) :
    ∃ translated, project.translateServices lib projectName = .ok translated ∧
      plans.mapVals (fun _ plan => plan.netFacts) =
        translated.mapVals (fun _ plan => plan.netFacts) ∧
      plans.mapVals (fun _ plan => plan.inheritable) =
        translated.mapVals fun _ plan => plan.inheritable := by
  unfold Project.commonPlans at done
  obtain ⟨translated, first, done⟩ := exists_of_bind_ok done
  obtain ⟨routed, second, done⟩ := exists_of_bind_ok done
  refine ⟨translated, first, ?_, ?_⟩
  · rw [inheritBlock_keeps _ done (fun _ _ => rfl),
      inheritBlock_keeps _ second (fun _ _ => rfl)]
  · rw [inheritBlock_keeps _ done (fun _ _ => rfl),
      inheritBlock_keeps _ second (fun _ _ => rfl)]

theorem commonPlans_error_iff : (∃ cause, project.commonPlans lib projectName = .error cause) ↔
      (∃ cause, project.translateServices lib projectName = .error cause) ∨
        Rejected (translateEgress lib) project.egress ∨
        Rejected (translateTelemetry lib) project.telemetry := by
  unfold Project.commonPlans
  apply bind_error_iff
  intro translated _
  refine (bind_error_iff ?_).trans (or_congr_left inheritBlock_error_iff)
  intro routed _
  exact inheritBlock_error_iff

theorem finishPlans_ok (done : project.finishPlans lib plans = .ok out) :
    out.mapVals (fun _ plan => plan.inheritable) =
      plans.mapVals fun _ plan => plan.inheritable := by
  unfold Project.finishPlans at done
  obtain ⟨filled, first, done⟩ := exists_of_bind_ok done
  change applyUserNetIPs lib (project.applyProxyPolicy filled) = _ at done
  unfold applyUserNetIPs at done
  obtain ⟨results, addressed, done⟩ := exists_of_bind_ok done
  cases done
  calc
    _ = (project.applyProxyPolicy filled).mapVals (fun _ plan => plan.inheritable) := by
      rw [mapVals_mapVals]
      apply mapVals_congr
      intro name plan
      exact inheritable_setNet plan _
    _ = filled.mapVals fun _ plan => plan.inheritable :=
      applyProxyPolicy_keeps _ inheritable_setProxy filled
    _ = _ := inheritBlock_keeps _ first (fun _ _ => rfl)

theorem finishPlans_error_iff : (∃ cause, project.finishPlans lib plans = .error cause) ↔
      Rejected (translateIngress lib) project.ingress ∨
        ∃ cause, userNetIPs lib (plans.mapVals fun _ plan => plan.netFacts) = .error cause := by
  unfold Project.finishPlans
  rw [← @inheritBlock_error_iff _ _ project.ingress "project ingress" (translateIngress lib)
    (fun plan => plan.spec.ingress.isSome) fillIngress plans]
  apply bind_error_iff
  intro filled first
  have facts : (project.applyProxyPolicy filled).mapVals (fun _ plan => plan.netFacts) =
        plans.mapVals fun _ plan => plan.netFacts := by
    rw [applyProxyPolicy_keeps _ netFacts_setProxy]
    exact inheritBlock_keeps _ first (fun _ _ => rfl)
  unfold applyUserNetIPs
  rw [facts]
  refine (bind_error_iff fun results _ => ?_).trans (or_iff_left id)
  exact iff_false_intro fun ⟨_, failed⟩ => nomatch failed

theorem blocked_iff : project.Blocked lib projectName ↔
      ∀ plans, project.commonPlans lib projectName = .ok plans →
        ∃ cause, project.finishPlans lib plans = .error cause := by
  constructor
  · intro blocked plans common
    obtain ⟨translated, first, facts, _⟩ := commonPlans_ok common
    have passed := (not_congr (@commonPlans_error_iff lib project
      projectName)).mp (fun ⟨cause, failed⟩ => by
        cases common.symm.trans failed)
    rw [finishPlans_error_iff, facts]
    rcases blocked with failed | rejected | rejected | rejected | addresses
    · exact absurd (.inl failed) passed
    · exact absurd (.inr (.inl rejected)) passed
    · exact absurd (.inr (.inr rejected)) passed
    · exact .inl rejected
    obtain ⟨others, cause, second, failed⟩ := addresses
    cases first.symm.trans second
    exact .inr ⟨cause, failed⟩
  · intro fails
    cases common : project.commonPlans lib projectName with
    | error cause =>
      rcases commonPlans_error_iff.mp ⟨cause, common⟩ with
        failed | rejected | rejected
      · exact .inl failed
      · exact .inr (.inl rejected)
      · exact .inr (.inr (.inl rejected))
    | ok plans =>
      obtain ⟨translated, first, facts, _⟩ := commonPlans_ok common
      rcases finishPlans_error_iff.mp (fails plans common) with
        rejected | ⟨cause, failed⟩
      · exact .inr (.inr (.inr (.inl rejected)))
      · rw [facts] at failed
        exact .inr (.inr (.inr (.inr ⟨translated, cause, first, failed⟩)))

/-- What a service's own blocks leave open for the project's. -/
def Service.inheritable (svc : Service) : Option Credentials × List String :=
  match svc.provider with
  | some _ => (none, [])
  | none => (svc.credentials.filter (fun own => !own.sources.isEmpty), svc.shells)

theorem translateCredentials_ok {spec : Option Credentials}
    (done : translateCredentials lib block = .ok spec) :
    spec = block.filter fun own => !own.sources.isEmpty := by
  cases block with
  | none =>
    cases done
    rfl
  | some credentials =>
    rw [translateCredentials] at done
    split at done
    · rename_i empty
      cases done
      simp [Option.filter, empty]
    · rename_i present
      obtain ⟨_, _, done⟩ := exists_of_bind_ok done
      cases done
      simp [Option.filter, present]

theorem inField_ok {Result : Type} {field : String}
    {outcome : Except String Result} {result : Result}
    (done : inField field outcome = .ok result) : outcome = .ok result := by
  cases outcome with
  | error cause => cases done
  | ok value => exact done

theorem translateContainer_inheritable
    (done : translateContainer lib projectName name svc defs = .ok plan) :
    plan.inheritable = (svc.credentials.filter (fun own => !own.sources.isEmpty), svc.shells) := by
  unfold translateContainer at done
  iterate 7 obtain ⟨_, _, done⟩ := exists_of_bind_ok done
  obtain ⟨credentials, translated, done⟩ := exists_of_bind_ok done
  obtain ⟨_, _, done⟩ := exists_of_bind_ok done
  cases done
  have own := translateCredentials_ok (inField_ok translated)
  exact congrArg (fun spec => (spec, svc.shells)) own

theorem translateService_inheritable
    (done : translateService lib projectName name svc defs = .ok plan) :
    plan.inheritable = svc.inheritable := by
  unfold translateService at done
  unfold Service.inheritable
  cases delegated : svc.provider with
  | none =>
    rw [delegated] at done
    exact translateContainer_inheritable done
  | some provider =>
    simp only [delegated, translateProvider] at done
    split at done
    · cases done
    split at done <;> cases done
    rfl

theorem lookup_inheritable (common : project.commonPlans lib projectName = .ok plans)
    (finish : project.finishPlans lib plans = .ok out) (name : String) :
    (out.lookup name).map inheritable = (project.services.lookup name).map Service.inheritable := by
  obtain ⟨translated, first, _, kept⟩ := commonPlans_ok common
  have same := (finishPlans_ok finish).trans kept
  have here := congrArg (AList.lookup name) same
  rw [lookup_mapVals, lookup_mapVals] at here
  refine here.trans ?_
  have applied := lookup_traverse first name
  cases known : project.services.lookup name with
  | none =>
    rw [known] at applied
    rw [Option.map_eq_none_iff.mp applied]
    rfl
  | some svc =>
    rw [known] at applied
    obtain ⟨plan, found, done⟩ := Option.map_eq_some_iff.mp applied
    rw [found]
    exact congrArg some (translateService_inheritable (inField_ok done.symm))

theorem ownCredentials_iff : svc.OwnCredentials ↔ svc.inheritable.1 ≠ none := by
  unfold Service.OwnCredentials Service.inheritable
  cases svc.provider with
  | some provider => simp
  | none =>
    cases svc.credentials with
    | none => simp
    | some own => simp [Option.filter]

theorem ownShells_iff : svc.OwnShells ↔ svc.inheritable.2 ≠ [] := by
  unfold Service.OwnShells Service.inheritable
  cases svc.provider with
  | some provider => simp
  | none => simp

theorem sharedCredentials_ok {shared : Option Credentials}
    (done : project.sharedCredentials lib = .ok shared) :
    project.CredentialsIdle lib ↔ (shared ≠ none → ∀ name svc,
        project.services.lookup name = some svc → svc.OwnCredentials) := by
  unfold Project.sharedCredentials at done
  unfold Project.CredentialsIdle
  cases given : project.credentials with
  | none =>
    rw [given] at done
    cases done
    constructor
    · intro _ absent
      exact absurd rfl absent
    · intro _ block present
      cases present
  | some block =>
    simp only [given] at done
    have translated := inField_ok done
    have value := translateCredentials_ok translated
    have nonempty : shared ≠ none ↔ block.sources ≠ [] := by
      rw [value]
      simp [Option.filter]
    constructor
    · intro idle present
      exact (idle block rfl (nonempty.mp present)).2
    · intro own other same sources
      cases same
      exact ⟨⟨shared, translated⟩, own (nonempty.mpr sources)⟩

theorem sharedCredentials_error {cause : String}
    (failed : project.sharedCredentials lib = .error cause) : ¬project.CredentialsIdle lib := by
  intro idle
  unfold Project.sharedCredentials at failed
  cases given : project.credentials with
  | none =>
    rw [given] at failed
    cases failed
  | some block =>
    simp only [given] at failed
    by_cases empty : block.sources = []
    · rw [translateCredentials, if_pos empty] at failed
      cases failed
    · obtain ⟨⟨spec, translated⟩, _⟩ := idle block given empty
      rw [translated] at failed
      cases failed

end Passes

theorem inherits_nothing_iff {project : Project} {credentials : Option Credentials}
    {out : Dict ServicePlan} (kept : ∀ name, (out.lookup name).map inheritable =
      (project.services.lookup name).map Service.inheritable) :
    (∀ name, out.lookup name = (out.mapVals fun _ plan =>
          plan.inherit credentials project.shells).lookup name) ↔ (credentials ≠ none → ∀ name svc,
        project.services.lookup name = some svc → svc.OwnCredentials) ∧ project.ShellsIdle := by
  have each : ∀ name, (out.lookup name = (out.mapVals fun _ plan =>
          plan.inherit credentials project.shells).lookup name) ↔
      ∀ svc ∈ project.services.lookup name, (svc.inheritable.1 = none → credentials = none) ∧
          (svc.inheritable.2 = [] → project.shells = []) := by
    intro name
    rw [← Option.forall_mem_map (f := Service.inheritable) (p := fun own =>
        (own.1 = none → credentials = none) ∧ (own.2 = [] → project.shells = [])),
      ← kept, Option.forall_mem_map, lookup_mapVals]
    cases out.lookup name with
    | none => simp
    | some plan =>
      rw [Option.map_some, Option.some_inj, eq_comm, inherit_eq_self_iff]
      simp [inheritable]
  simp only [each]
  constructor
  · intro own
    constructor
    · intro present name svc known
      rw [ownCredentials_iff]
      exact fun missing => present ((own name svc known).1 missing)
    · intro present name svc known
      rw [ownShells_iff]
      exact fun missing => present ((own name svc known).2 missing)
  · rintro ⟨ownCredentials, ownShells⟩ name svc known
    constructor
    · intro missing
      by_contra present
      exact ownCredentials_iff.mp (ownCredentials present name svc known) missing
    · intro missing
      by_contra present
      exact ownShells_iff.mp (ownShells present name svc known) missing

theorem plan_of_bare {lib : Runtime} {project : Project}
    (noCredentials : project.credentials = none)
    (noShells : project.shells = []) (projectName : String) : project.plan lib projectName =
      project.commonPlans lib projectName >>= project.finishPlans lib := by
  rw [plan_eq, Project.sharedCredentials, noCredentials, noShells]
  congr 1
  funext plans
  change project.finishPlans lib (plans.mapVals fun _ plan => plan.inherit none []) = _
  simp only [inherit_nothing, mapVals_id]

/-- The plans of a view agree with those of the restricted project exactly when
the project is blocked or its two dropped blocks are idle. -/
theorem samePlans_iff (view : ProjectProfileView) (projectName : String) :
    SamePlans (view.plan lib projectName) (view.restricted.plan lib projectName) ↔
      view.restricted.Blocked lib projectName ∨
        (view.restricted.CredentialsIdle lib ∧ view.restricted.ShellsIdle) := by
  have bare : view.plan lib projectName = view.restricted.commonPlans lib projectName >>=
        view.restricted.finishPlans lib :=
    plan_of_bare rfl rfl projectName
  rw [bare, plan_eq, blocked_iff]
  cases common : view.restricted.commonPlans lib projectName with
  | error cause =>
    constructor
    · intro _
      left
      intro plans done
      cases done
    · intro _
      trivial
  | ok plans =>
    simp only [bind, Except.bind, finishPlans_commutes]
    cases finish : view.restricted.finishPlans lib plans with
    | error cause =>
      constructor
      · intro _
        left
        intro others done
        cases done
        exact ⟨cause, finish⟩
      · intro _
        cases view.restricted.sharedCredentials lib <;> trivial
    | ok out =>
      have passed : ¬∀ others, (.ok plans : Except String (Dict ServicePlan)) = .ok others →
            ∃ cause, view.restricted.finishPlans lib others = .error cause := by
        intro blocked
        obtain ⟨cause, failed⟩ := blocked plans rfl
        cases finish.symm.trans failed
      rw [or_iff_right passed]
      cases shared : view.restricted.sharedCredentials lib with
      | error cause =>
        constructor
        · intro same
          exact same.elim
        · intro idle
          exact absurd idle.1 (sharedCredentials_error shared)
      | ok credentials =>
        rw [sharedCredentials_ok shared]
        exact inherits_nothing_iff (fun name => lookup_inheritable common finish name)

/-- Planning through a profile view keeps every plan exactly when planning is
blocked anyway or no selected service inherits credentials or shells from the
project. -/
theorem viewKeepsPlans_iff (lib : Runtime) (project : Project)
    (profiles : List String) (projectName : String) :
    project.ViewKeepsPlans lib profiles projectName ↔
      (project.view profiles).restricted.Blocked lib projectName ∨
        ((project.view profiles).restricted.CredentialsIdle lib ∧
          (project.view profiles).restricted.ShellsIdle) := by
  rw [← samePlans_iff]
  unfold Project.ViewKeepsPlans
  constructor
  · intro keeps
    exact keeps.1
  · intro same
    refine ⟨same, fun ungated => ?_⟩
    have whole : (project.view profiles).restricted = project := by
      have all : project.selectedServices profiles = project.services := by
        rw [Project.selectedServices, ungated]
        rfl
      change ({ project with services := project.selectedServices profiles } : Project) = project
      rw [all]
    rw [whole] at same
    exact same

/-- One service, and a default shell. -/
def shellProject : Project :=
  { services := AList.singleton "web" { image := "nginx" }, shells := ["/bin/bash"] }

/-- `web` has no profile, but through the view its plan lists no shell. -/
theorem shellProject_not_viewKeepsPlans :
    ¬∃ lib : Runtime, shellProject.ViewKeepsPlans lib [] "demo" := by
  rintro ⟨lib, keeps⟩
  have same := keeps.2 rfl "web"
  have seen : ∀ (first second : Option ServicePlan), first = second →
      first.map shells = second.map shells :=
    fun _ _ equal => congrArg _ equal
  have listed : some [] = some ["/bin/bash"] := seen _ _ same
  cases listed

end Cornus.Compose
