import Cornus.Compose.Translate
import Cornus.Compose.UserNet

/-!
# Projects, profile views and plans

`Project.Plan` translates every service, applies the project-level defaults one
after another, and then runs the two passes over the whole topology.
`Project.View` narrows a project to the services an active profile set selects.
-/

namespace Cornus.Compose

/-- The project that is planned. -/
structure Project extends Definitions where
  name : String := ""
  services : Dict Service := ∅
  egress : Option Egress := none
  ingress : Option Ingress := none
  telemetry : Option Telemetry := none
  credentials : Option Credentials := none
  shells : List String := []

/-- A service's ingress over the project's. -/
def applyIngressDefaults (svc def_ : Api.IngressSpec) : Api.IngressSpec :=
  let tls := match def_.tls, svc.tls with
    | none, own => own
    | some shared, none => some shared
    | some shared, some own => some
        { secretName :=
            if own.secretName = "" then shared.secretName else own.secretName
          clusterIssuer :=
            if own.clusterIssuer = "" then shared.clusterIssuer
            else own.clusterIssuer }
  { svc with
    domain := if svc.domain = "" then def_.domain else svc.domain
    className := if svc.className = "" then def_.className else svc.className
    tls }

/-- A project-level block that every plan without one of its own inherits; the
block is checked once before. -/
def inheritBlock {Block Spec : Type} (block : Option Block) (label : String)
    (translate : Block → Except String Spec) (missing : ServicePlan → Bool)
    (fill : Spec → ServicePlan → ServicePlan) (plans : Dict ServicePlan) :
    Except String (Dict ServicePlan) :=
  match block with
  | none => .ok plans
  | some block =>
    match inField label (translate block) with
    | .error cause => .error cause
    | .ok spec =>
      .ok (plans.mapVals fun _ plan =>
        if missing plan then fill spec plan else plan)

namespace ServicePlan

def setEgress (egress : Api.EgressSpec) (plan : ServicePlan) : ServicePlan :=
  { plan with spec := { plan.spec with egress := some egress } }

def setTelemetry (telemetry : Api.TelemetrySpec) (plan : ServicePlan) : ServicePlan :=
  { plan with spec := { plan.spec with telemetry := some telemetry } }

def setCredentials (credentials : Option Credentials) (plan : ServicePlan) : ServicePlan :=
  { plan with spec := { plan.spec with credentials } }

def setShells (shells : List String) (plan : ServicePlan) : ServicePlan :=
  { plan with shells }

def fillIngress (def_ : Api.IngressSpec) (plan : ServicePlan) : ServicePlan :=
  { plan with spec := { plan.spec with
      ingress := plan.spec.ingress.map (applyIngressDefaults · def_) } }

def setProxy (plan : ServicePlan) : Option Api.ProxySpec → ServicePlan
  | none => plan
  | some proxy => { plan with spec := { plan.spec with proxy := some proxy } }

end ServicePlan

/-- The proxy mode of a service, when one of its networks is proxied; a later
network's mode wins over an earlier one's. -/
def proxyMode (networks : Dict NetworkDef) (svc : Service) : Option String :=
  svc.attachments.foldl (fun mode sn =>
    match networks.lookup sn.name with
    | none => mode
    | some def_ =>
      if def_.driverOpts.lookup "proxy" = some "true" then
        let own := (def_.driverOpts.lookup "mode").getD ""
        some (if own ≠ "" then own else mode.getD "")
      else
        mode) none

variable (services : Dict Service)

/-- The other services that share a network with a service, by name. -/
def peersOf (name : String) (svc : Service) : List String :=
  sortStrings ((services.entries.filter fun entry =>
    entry.1 ≠ name ∧ entry.2.attachments.any fun sn =>
      svc.attachments.any fun own => own.name = sn.name).map Sigma.fst)

/-- The ports a service listens on, sorted. -/
def serviceContainerPorts (svc : Service) : List Int :=
  (((svc.ports.map Port.container ++ svc.expose).filter (0 < ·)).dedup ).insertionSort (· ≤ ·)

/-- The ports of each peer. -/
def peerPorts (peers : List String) : Dict (List Int) :=
  peers.foldl (fun ports peer =>
    match services.lookup peer with
    | none => ports
    | some svc =>
      if serviceContainerPorts svc = [] then ports
      else ports.put peer (serviceContainerPorts svc)) ∅

/-- The proxy a service gets from `applyProxyPolicy`, if any. -/
def proxySpec (networks : Dict NetworkDef) (name : String) : Option Api.ProxySpec :=
  (services.lookup name).bind fun svc =>
    (proxyMode networks svc).map fun mode =>
      let allow := peersOf services name svc
      { mode
        allow
        ports := if mode = "cooperative" then peerPorts services allow else ∅ }

namespace Project

variable (lib : Runtime) (project : Project) (projectName : String)

/-- The first loop of `Plan`. -/
def translateServices : Except String (Dict ServicePlan) :=
  project.services.traverse fun name svc =>
    inField ("service " ++ lib.quote name)
      (translateService lib projectName name svc project.toDefinitions)

variable (plans : Dict ServicePlan)

/-- The project's egress, where a service has none. -/
def egressDefaults : Except String (Dict ServicePlan) :=
  inheritBlock project.egress "project egress" (translateEgress lib)
    (fun plan => plan.spec.egress.isNone) ServicePlan.setEgress plans

/-- The project's telemetry, where a service has none. -/
def telemetryDefaults : Except String (Dict ServicePlan) :=
  inheritBlock project.telemetry "project telemetry" (translateTelemetry lib)
    (fun plan => plan.spec.telemetry.isNone) ServicePlan.setTelemetry plans

/-- The project's credentials, where a service has none. -/
def credentialsDefaults : Except String (Dict ServicePlan) :=
  inheritBlock project.credentials "project credentials"
    (fun block => translateCredentials lib (some block))
    (fun plan => plan.spec.credentials.isNone) ServicePlan.setCredentials plans

/-- The project's shells, where a service has none. -/
def shellDefaults : Dict ServicePlan :=
  if project.shells = [] then
    plans
  else
    plans.mapVals fun _ plan =>
      if plan.shells = [] then plan.setShells project.shells else plan

/-- The project-level ingress defaults; they enable nothing. -/
def ingressDefaults : Except String (Dict ServicePlan) :=
  inheritBlock project.ingress "project ingress" (translateIngress lib)
    (fun plan => plan.spec.ingress.isSome) ServicePlan.fillIngress plans

/-- Each service's peers, from the networks it is on. -/
def applyProxyPolicy : Dict ServicePlan :=
  plans.mapVals fun name plan =>
    plan.setProxy (proxySpec project.services project.networks name)

/-- `Project.Plan`, in the order of the source. -/
def plan : Except String (Dict ServicePlan) := do
  let plans ← project.translateServices lib projectName
  let plans ← project.egressDefaults lib plans
  let plans ← project.telemetryDefaults lib plans
  let plans ← project.credentialsDefaults lib plans
  let plans := project.shellDefaults plans
  let plans ← project.ingressDefaults lib plans
  applyUserNetIPs lib (project.applyProxyPolicy plans)

variable (profiles : List String)

/-- Whether a service is enabled by its profiles alone. -/
def activeIn (svc : Service) : Bool :=
  svc.profiles.isEmpty || svc.profiles.any fun profile =>
      profile != "" && profiles.contains profile

/-- The inner loop of `View` over the dependencies of one service. -/
def enableDeps (all : Dict Service) :
    List String → List String × List String → List String × List String
  | [], state => state
  | dep :: rest, (enabled, queue) =>
    if (all.lookup dep).isSome ∧ dep ∉ enabled then
      enableDeps all rest (dep :: enabled, dep :: queue)
    else
      enableDeps all rest (enabled, queue)

/-- The worklist loop of `View`.  Every service enters the queue at most once,
so as many turns as there are services are enough. -/
def pullIn (all : Dict Service) : Nat → List String → List String → List String
  | 0, enabled, _ => enabled
  | _ + 1, enabled, [] => enabled
  | fuel + 1, enabled, name :: queue =>
    match all.lookup name with
    | none => pullIn all fuel enabled queue
    | some svc =>
      let state := enableDeps all (svc.dependsOn.map Dependency.service) (enabled, queue)
      pullIn all fuel state.1 state.2

/-- Some service declares profiles. -/
def gated : Bool :=
  project.services.entries.any fun entry => !entry.2.profiles.isEmpty

/-- The active services and what they depend on. -/
def enabledNames : List String :=
  let start := (project.services.entries.filter fun entry =>
    activeIn profiles entry.2).map Sigma.fst
  pullIn project.services project.services.entries.length start start

/-- The services of `View`. -/
def selectedServices : Dict Service :=
  if project.gated then
    project.services.restrict (project.enabledNames profiles).contains
  else
    project.services

end Project

/-- `ProjectProfileView`. -/
structure ProjectProfileView where
  project : Project
  services : Dict Service

/-- `View`. -/
def Project.view (project : Project) (profiles : List String) : ProjectProfileView :=
  { project, services := project.selectedServices profiles }

namespace ProjectProfileView

/-- `selected`, which rebuilds the project field by field. -/
def selected (view : ProjectProfileView) : Project :=
  { name := view.project.name, services := view.services, secrets := view.project.secrets,
    configs := view.project.configs, volumes := view.project.volumes,
    networks := view.project.networks, egress := view.project.egress,
    ingress := view.project.ingress, telemetry := view.project.telemetry }

/-- `ProjectProfileView.Plan`. -/
def plan (lib : Runtime) (view : ProjectProfileView) (projectName : String) :
    Except String (Dict ServicePlan) :=
  view.selected.plan lib projectName

end ProjectProfileView

end Cornus.Compose
