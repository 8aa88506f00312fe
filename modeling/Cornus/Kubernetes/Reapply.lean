import Cornus.Kubernetes.Workload
import Cornus.Lib.Attempt
import Cornus.Lib.Run

/-!
# Applying a spec again

`Apply` writes the workload of a spec and then its dependents: alias Services,
the Service, the TLS Secrets and the Ingress.  What it does with each depends on
what an earlier apply left.  The cluster below is a namespace as one deployment
sees it: its own workloads, and the Services and Secrets of everyone.

The claims and the Secrets for telemetry and credentials that an apply also
writes are left out.  An apply that fails has no successor here.
-/

namespace Cornus.Kubernetes

open Lib

/-- An owner reference. -/
structure Owner where
  kind : WorkloadKind
  name : String
  uid : Nat
  deriving DecidableEq

/-- A port of a Service. -/
structure ServicePort where
  name : String
  port : Int
  protocol : String
  deriving DecidableEq

/-- What a Service says.  Its selector is that of the deployment's pods. -/
structure ServiceBody where
  headless : Bool
  labels : List (String × String)
  selector : String
  ports : List ServicePort
  deriving DecidableEq

/-- A Secret with a certificate. -/
structure SecretBody where
  app : String
  ingressTls : Bool
  certificate : String
  privateKey : String
  deriving DecidableEq

/-- An object with its owner. -/
structure Owned (Body : Type) where
  body : Body
  owner : Owner
  deriving DecidableEq

/-- A workload with the UID it was given. -/
structure Running (Template : Type) where
  uid : Nat
  template : Template

variable (Template Ingress : Type)

/-- What a release leaves in the cluster. -/
structure Cluster where
  workload : WorkloadKind → Option (Running Template) := fun _ => none
  services : Dict (Owned ServiceBody) := ∅
  secrets : Dict (Owned SecretBody) := ∅
  ingress : Option (Owned Ingress) := none
  uids : Nat := 0

/-- The functions that build the pod template and the Ingress of a spec. -/
structure Builders where
  template : WorkloadKind → DeploySpec → Except Refusal Template
  ingress : DeploySpec → Except Refusal Ingress

section Bodies

variable (platform : Platform) (spec : DeploySpec)

def protocolOf (protocol : String) : String :=
  if protocol = "udp" then "UDP" else "TCP"

/-- The ports of the Service. -/
def servicePorts : List ServicePort :=
  spec.ports.map fun port =>
    let protocol := protocolOf port.protocol
    { name := "p" ++ toString port.container ++ "-" ++
        (if protocol = "UDP" then "udp" else "tcp")
      port := port.container
      protocol }

/-- `service`; the address is the one an existing Service has. -/
def serviceBody (headless : Bool) : ServiceBody where
  headless
  labels := [("cornus.managed", "true"), ("cornus.app", spec.name)]
  selector := spec.name
  ports := servicePorts spec

/-- The alias Services of the networks, as `WorkloadScoped` returns them. -/
def aliasServices : List (String × ServiceBody) :=
  spec.networks.flatMap fun net =>
    net.aliases.filterMap fun aka =>
      let name := sanitizeDns platform aka
      if name = "" || name.length > 63 then none
      else
        some (name,
          { headless := true
            labels := [("cornus.managed", "true"),
              (netLabelPre ++ netLabelName platform net.name, "true")]
            selector := spec.name
            ports := servicePorts spec })

/-- The certificates that the ingress manages. -/
def tlsBlock : Option (List ManagedCertificate) :=
  spec.ingress.bind fun ingress =>
    if ingress.clientEmulated then none else ingress.tls

/-- The Secrets of the certificates, each name once. -/
def wantedSecrets (name : String) : List (String × SecretBody) → List ManagedCertificate →
      Except Refusal (List (String × SecretBody))
  | wanted, [] => .ok wanted
  | wanted, certificate :: rest => do
    let secret := trimSpace certificate.secretName
    if secret = "" then throw .noSecretName
    if certificate.certificate = "" || certificate.privateKey = "" then
      throw (.noKeyPair secret)
    if (wanted.lookup secret).isSome then throw (.secretTwice secret)
    wantedSecrets name (wanted ++ [(secret,
      { app := name, ingressTls := true, certificate := certificate.certificate,
        privateKey := certificate.privateKey })]) rest

end Bodies

/-- The Secret was made for this application's ingress. -/
def SecretBody.managedFor (name : String) (secret : SecretBody) : Bool :=
  secret.ingressTls && secret.app = name

section Apply

variable {Template Ingress : Type}

/-- The alias Services are created where the name is free. -/
def createAliases (owner : Owner) (aliases : List (String × ServiceBody))
    (services : Dict (Owned ServiceBody)) : Dict (Owned ServiceBody) :=
  aliases.foldl (fun services entry =>
    if (services.lookup entry.1).isSome then services
    else services.insert entry.1 ⟨entry.2, owner⟩) services

/-- The Service is created or updated if the spec publishes ports. -/
def putService (owner : Owner) (spec : DeploySpec)
    (services : Dict (Owned ServiceBody)) : Dict (Owned ServiceBody) :=
  if spec.ports = [] then services
  else
    let headless := (services.lookup spec.name).any (·.body.headless)
    services.insert spec.name ⟨serviceBody spec headless, owner⟩

/-- A Secret is created or replaced, if it is ours. -/
def putSecret (owner : Owner) (name : String)
    (secrets : Dict (Owned SecretBody)) (entry : String × SecretBody) :
    Except Refusal (Dict (Owned SecretBody)) :=
  if (secrets.lookup entry.1).all (·.body.managedFor name) then
    .ok (secrets.insert entry.1 ⟨entry.2, owner⟩)
  else .error (.foreignSecret entry.1)

/-- `applyManagedIngressTLSSecrets`.  Without a TLS block it does nothing. -/
def applyTlsSecrets (owner : Owner) (spec : DeploySpec) (secrets : Dict (Owned SecretBody)) :
    Except Refusal (Dict (Owned SecretBody)) :=
  match tlsBlock spec with
  | none => .ok secrets
  | some certificates => do
    let wanted ← wantedSecrets spec.name [] certificates
    let secrets ← wanted.foldlM (putSecret owner spec.name) secrets
    return secrets.restrict fun secret =>
      (wanted.lookup secret).isSome || !(secrets.lookup secret).any (·.body.managedFor spec.name)

variable (platform : Platform) (builders : Builders Template Ingress)

/-- The Service, the Secrets and the Ingress of a workload. -/
def applyDependents (owner : Owner) (spec : DeploySpec) (cluster : Cluster Template Ingress) :
    Except Refusal (Cluster Template Ingress) := do
  let services := putService owner spec
    (createAliases owner (aliasServices platform spec) cluster.services)
  let secrets ← applyTlsSecrets owner spec cluster.secrets
  if ingressEnabled spec.ingress then
    let ingress ← builders.ingress spec
    return { cluster with services, secrets, ingress := some ⟨ingress, owner⟩ }
  return { cluster with services, secrets }

variable (cluster : Cluster Template Ingress) (kind : WorkloadKind) (template : Template)

/-- A workload is created with a fresh UID. -/
def Cluster.create : Cluster Template Ingress :=
  { cluster with
    workload := Function.update cluster.workload kind (some ⟨cluster.uids, template⟩)
    uids := cluster.uids + 1 }

/-- A workload is updated in place, or created. -/
def Cluster.update (cluster : Cluster Template Ingress) (kind : WorkloadKind)
    (template : Template) : Cluster Template Ingress :=
  match cluster.workload kind with
  | none => cluster.create kind template
  | some running =>
    { cluster with
      workload := Function.update cluster.workload kind (some { running with template }) }

/-- A Job goes, and with it what it owns. -/
def Cluster.deleteJob (name : String) : Cluster Template Ingress :=
  match cluster.workload .job with
  | none => cluster
  | some running =>
    let owner : Owner := ⟨.job, name, running.uid⟩
    { cluster with
      workload := Function.update cluster.workload .job none
      services := cluster.services.restrict fun service =>
        !(cluster.services.lookup service).any (·.owner = owner)
      secrets := cluster.secrets.restrict fun secret =>
        !(cluster.secrets.lookup secret).any (·.owner = owner)
      ingress := cluster.ingress.filter (·.owner ≠ owner) }

/-- The reference to the workload. -/
def Cluster.ownerOf (name : String) : Owner :=
  ⟨kind, name, ((cluster.workload kind).map Running.uid).getD 0⟩

/-- `applyKnativeService`; the dependents are skipped. -/
def applyKnativeService (cluster : Cluster Template Ingress) : Cluster Template Ingress :=
  cluster.update .knativeService template

variable (spec : DeploySpec)

/-- A Job is deleted and created again. -/
def applyJob (cluster : Cluster Template Ingress) : Except Refusal (Cluster Template Ingress) :=
  let cluster := (cluster.deleteJob spec.name).create .job template
  applyDependents platform builders (cluster.ownerOf .job spec.name) spec cluster

/-- A Deployment is updated in place. -/
def applyDeployment (cluster : Cluster Template Ingress) :
    Except Refusal (Cluster Template Ingress) :=
  let cluster := cluster.update .deployment template
  applyDependents platform builders (cluster.ownerOf .deployment spec.name) spec cluster

/-- The workload of the kind that was chosen. -/
def applyKind (cluster : Cluster Template Ingress) : Except Refusal (Cluster Template Ingress) :=
  match kind with
  | .knativeService => .ok (applyKnativeService template cluster)
  | .job => applyJob platform builders template spec cluster
  | .deployment => applyDeployment platform builders template spec cluster

/-- `Apply`. -/
def apply (caps : Capabilities) (cluster : Cluster Template Ingress)
    (spec : DeploySpec) : Except Refusal (Cluster Template Ingress) := do
  let kind ← workloadKind caps spec
  let template ← builders.template kind spec
  applyKind platform builders kind template spec cluster

end Apply

/-- The objects of a deployment, without what the server assigns. -/
structure View where
  workload : WorkloadKind → Option Template
  services : String → Option (ServiceBody × WorkloadKind)
  secrets : String → Option (SecretBody × WorkloadKind)
  ingress : Option (Ingress × WorkloadKind)

variable {Template Ingress : Type}

/-- An object without its owner's UID. -/
def Owned.shown {Body : Type} (object : Owned Body) : Body × WorkloadKind :=
  (object.body, object.owner.kind)

/-- What can be seen of a release, without UIDs. -/
def Cluster.view (cluster : Cluster Template Ingress) (name : String) : View Template Ingress where
  workload kind := (cluster.workload kind).map Running.template
  services service :=
    ((cluster.services.lookup service).filter (·.owner.name = name)).map Owned.shown
  secrets secret :=
    ((cluster.secrets.lookup secret).filter (·.body.managedFor name)).map Owned.shown
  ingress := cluster.ingress.map Owned.shown

/-- The namespace holds no object of the deployment. -/
structure Cluster.Foreign (cluster : Cluster Template Ingress) (name : String) : Prop where
  workload : ∀ kind, cluster.workload kind = none
  services : ∀ service object, cluster.services.lookup service = some object →
    object.owner.name ≠ name
  secrets : ∀ secret object, cluster.secrets.lookup secret = some object →
    object.owner.name ≠ name ∧ object.body.managedFor name = false
  ingress : cluster.ingress = none

variable (platform : Platform) (builders : Builders Template Ingress) (caps : Capabilities)
  (cluster : Cluster Template Ingress) (spec : DeploySpec)

/-- An apply that is not refused. -/
def applyStep : Option (Cluster Template Ingress) :=
  (apply platform builders caps cluster spec).toOption

/-- After any applies of one name, all of them allowed, the objects of the
deployment are those that the last spec alone gives. -/
def ReappliesConverge (allowed : Cluster Template Ingress → DeploySpec → Prop) : Prop :=
  ∀ name base specs spec cluster, Cluster.Foreign base name →
    Along (applyStep platform builders caps)
      (fun cluster spec => DeploySpec.name spec = name ∧ allowed cluster spec)
      base (specs ++ [spec]) →
    run (applyStep platform builders caps) base (specs ++ [spec]) = some cluster →
    ∃ fresh, apply platform builders caps {} spec = .ok fresh ∧ cluster.view name = fresh.view name

/-- The Service that the spec asks for under a name: its own Service, or the
first alias of that name. -/
def askedService (service : String) : Option ServiceBody :=
  let aka := (aliasServices platform spec).lookup service
  if service = spec.name ∧ spec.ports ≠ [] then
    some (serviceBody spec aka.isSome)
  else aka

/-- What the deployment's Service under a name must be for the apply to leave
what the spec asks for. -/
def serviceSuits (service : String) (body : ServiceBody) : Prop :=
  let aka := (aliasServices platform spec).lookup service
  if service = spec.name ∧ spec.ports ≠ [] then body.headless = aka.isSome
  else aka = some body

/-- The spec keeps the kind of the workload; no other deployment holds a Service
under a name the spec uses; and if the workload is a Deployment, its Services,
Ingress and TLS Secrets are asked for again. -/
structure Compatible : Prop where
  kind : ∀ kind, (cluster.workload kind).isSome → workloadKind caps spec = .ok kind
  free : workloadKind caps spec ≠ .ok .knativeService →
    ∀ service object, cluster.services.lookup service = some object →
      (askedService platform spec service).isSome → object.owner.name = spec.name
  services : workloadKind caps spec = .ok .deployment →
    ∀ service object, cluster.services.lookup service = some object →
      object.owner.name = spec.name → serviceSuits platform spec service object.body
  secrets : workloadKind caps spec = .ok .deployment →
    ∀ secret object, cluster.secrets.lookup secret = some object →
      object.body.managedFor spec.name → (tlsBlock spec).isSome
  ingress : workloadKind caps spec = .ok .deployment →
    cluster.ingress.isSome → ingressEnabled spec.ingress = true

end Cornus.Kubernetes
