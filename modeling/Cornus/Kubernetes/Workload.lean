import Cornus.Lib.Dict
import Cornus.Lib.Strings

/-!
# Specs and the workloads they become

A spec becomes a Deployment, a Job if it is to run once, or a Knative Service if
it asks for one and the cluster serves them.  The pod template, and what an
Ingress says, are built from the whole spec; here they are what a builder
returns, and the fields below are those that decide which objects there are.
-/

namespace Cornus.Kubernetes

/-- The library functions that names are made with. -/
structure Platform where
  toLower : String → String
  /-- The first four bytes of `sha256.Sum256`, in hexadecimal. -/
  shortHash : String → String

/-- Lower case of ASCII, and the digest of the one network that is named below. -/
def asciiPlatform : Platform where
  toLower text := String.ofList (text.toList.map Char.toLower)
  shortHash text := if text = "front" then "2d8d6931" else ""

/-- The block `knative`. -/
structure KnativeSpec where
  enabled : Bool := true
  (className metric : String := "")
  (minScale maxScale target concurrency timeoutSeconds : Option Int := none)
  port : Int := 0
  deriving DecidableEq

/-- A client-supplied key pair, `api.ManagedIngressCertificate`. -/
structure ManagedCertificate where
  (secretName certificate privateKey : String)
  deriving DecidableEq

/-- `api.IngressSpec`; `tls` holds the managed certificates of a TLS block. -/
structure IngressSpec where
  enabled : Bool := true
  clientEmulated : Bool := false
  hosts : List String := []
  tls : Option (List ManagedCertificate) := none
  deriving DecidableEq

/-- A network of a service. -/
structure NetworkAttachment where
  name : String
  aliases : List String := []
  deriving DecidableEq

structure PortMapping where
  container : Int
  protocol : String := ""
  deriving DecidableEq

/-- `api.DeploySpec`, with the rest of it as one text. -/
structure DeploySpec where
  name : String
  (rest restart : String := "")
  knative : Option KnativeSpec := none
  ingress : Option IngressSpec := none
  ports : List PortMapping := []
  networks : List NetworkAttachment := []
  mounts : List String := []
  /-- The names of the volumes; an anonymous one has none. -/
  volumes : List String := []
  (proxy dns hub docker agentForward relayEgress : Bool := false)
  deriving DecidableEq

/-- The policy, with its default. -/
def restartPolicy (spec : DeploySpec) : String :=
  if spec.restart = "" then "unless-stopped" else spec.restart

/-- The service is meant to end. -/
def isOneShot (spec : DeploySpec) : Bool :=
  let policy := restartPolicy spec
  policy = "no" || policy = "on-failure" || "on-failure:".toList.isPrefixOf policy.toList

/-- The cluster is to make an Ingress. -/
def ingressEnabled (ingress : Option IngressSpec) : Bool :=
  ingress.any fun ingress =>
    !ingress.clientEmulated && (ingress.enabled || ingress.hosts ≠ [])

/-- Why a spec is refused. -/
inductive Refusal where
  | badClass (value : String)
  | badMetric (value : String)
  | metricNeedsHpa
  /-- A negative `minScale`, `maxScale`, `target`, `concurrency`,
  `timeoutSeconds` or `port`. -/
  | negative (field : String) (value : Int)
  | scaleOrder (low high : Int)
  | oneShot (policy : String)
  /-- A feature that Knative is not combined with. -/
  | unsupported (feature : String)
  /-- The cluster does not serve Knative and `CORNUS_KNATIVE_STRICT` is set. -/
  | notServed
  /-- The spec asks for an Ingress that cannot be built. -/
  | ingress (message : String)
  | noSecretName
  | noKeyPair (secret : String)
  | secretTwice (secret : String)
  | foreignSecret (secret : String)
  deriving DecidableEq

/-- A negative number is refused. -/
def checkSign (field : String) (value : Option Int) : Except Refusal Unit :=
  match value with
  | some number => if number < 0 then .error (.negative field number) else .ok ()
  | none => .ok ()

/-- `Validate` of the block, in its order. -/
def KnativeSpec.validate (knative : KnativeSpec) : Except Refusal Unit := do
  if knative.className ≠ "" && knative.className ∉ ["kpa", "hpa"] then
    throw (.badClass knative.className)
  if knative.metric ≠ "" && knative.metric ∉ ["concurrency", "rps", "cpu"] then
    throw (.badMetric knative.metric)
  if knative.metric = "cpu" && knative.className ≠ "hpa" then
    throw .metricNeedsHpa
  checkSign "minScale" knative.minScale
  checkSign "maxScale" knative.maxScale
  match knative.minScale, knative.maxScale with
  | some low, some high =>
    if high ≠ 0 && low > high then throw (.scaleOrder low high)
  | _, _ => pure ()
  checkSign "target" knative.target
  checkSign "concurrency" knative.concurrency
  checkSign "timeoutSeconds" knative.timeoutSeconds
  checkSign "port" (some knative.port)

/-- What a Knative service cannot have. -/
def knativeGuard (spec : DeploySpec) : Except Refusal Unit :=
  match spec.knative.filter KnativeSpec.enabled with
  | none => .ok ()
  | some knative => do
    knative.validate
    if isOneShot spec then throw (.oneShot (restartPolicy spec))
    if ingressEnabled spec.ingress then throw (.unsupported "ingress")
    if spec.mounts ≠ [] then throw (.unsupported "mounts")
    if spec.networks ≠ [] then throw (.unsupported "networks")
    if spec.volumes ≠ [] then throw (.unsupported "volumes")
    if spec.proxy then throw (.unsupported "proxy")
    if spec.dns then throw (.unsupported "dns")
    if spec.hub then throw (.unsupported "hub")
    if spec.docker then throw (.unsupported "docker")
    if spec.agentForward then throw (.unsupported "agentForward")
    if spec.relayEgress then throw (.unsupported "egress")

/-- The kinds of workload. -/
inductive WorkloadKind where
  | deployment
  | job
  | knativeService
  deriving DecidableEq

/-- What the backend knows of the cluster and its settings. -/
structure Capabilities where
  (knativeServed knativeStrict : Bool := false)

/-- The kind of workload that a spec runs as. -/
def workloadKind (caps : Capabilities) (spec : DeploySpec) : Except Refusal WorkloadKind := do
  knativeGuard spec
  let plain := if isOneShot spec then WorkloadKind.job else .deployment
  if (spec.knative.filter KnativeSpec.enabled).isSome then
    if caps.knativeServed then return .knativeService
    if caps.knativeStrict then throw .notServed
  return plain

section Names

variable (platform : Platform)

def dashed (c : Char) : Char :=
  if c.isLower || c.isDigit || c = '-' then c else '-'

def trimDashes (text : List Char) : List Char :=
  ((text.dropWhile (· = '-')).reverse.dropWhile (· = '-')).reverse

/-- `sanitizeDNS1123`. -/
def sanitizeDns (text : String) : String :=
  String.ofList (trimDashes ((platform.toLower text).toList.map dashed))

/-- The label of a network, cut and hashed. -/
def netLabelName (logical : String) : String :=
  let base := sanitizeDns platform logical
  let base := if base = "" then "net" else base
  let base :=
    if base.length > 54 then String.ofList (trimDashes (base.toList.take 54))
    else base
  base ++ "-" ++ platform.shortHash logical

end Names

def netLabelPre : String := "cornus.net/"

/-- The labels of every object. -/
def baseLabels (name : String) : Dict String :=
  (AList.singleton "cornus.managed" "true").insert "cornus.app" name

/-- The labels of the pod template: those of the spec, and the membership labels
that `MutateTemplate` stamps.  A Knative Service is made with the former
only. -/
def templateLabels (platform : Platform) (kind : WorkloadKind) (spec : DeploySpec) : Dict String :=
  match kind with
  | .knativeService => baseLabels spec.name
  | _ =>
    spec.networks.foldl (fun template net =>
      template.insert (netLabelPre ++ netLabelName platform net.name) "true")
      (baseLabels spec.name)

end Cornus.Kubernetes
