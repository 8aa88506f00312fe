import Cornus.Compose.Types
import Cornus.Lib.Strings

/-!
# The deploy specification

What a Compose service is translated to, with the checks the `api` package runs
on its blocks.  Field-identical types of the two packages are shared.  The
fields of `DeploySpec` the translation never sets are left out.
-/

namespace Cornus.Compose

/-- A `float64`, by its bit pattern. -/
abbrev Float64 := BitVec 64

/-- Whether a `float64` equals zero; the sign bit does not matter. -/
def Float64.isZero (value : Float64) : Bool :=
  value.extractLsb' 0 63 == 0

/-- The library functions the translation calls.  Results hold for any
behaviour of them. -/
structure Runtime where
  parseFloat : String → Except String Float64
  /-- `int64(num * mult)`. -/
  scale : Float64 → Nat → Int
  toLower : String → String
  /-- The `%q` verb. -/
  quote : String → String
  sha256 : List UInt8 → Vector UInt8 32

namespace Api

/-- `api.EgressSpec`. -/
structure EgressSpec where
  (mode gateway : String)
  proxies : Dict String
  rules : List EgressRule
  (script default : String)
  listenPort : Int

variable (lib : Runtime)

/-- Its `Validate`. -/
def EgressSpec.validate (spec : EgressSpec) : Except String Unit :=
  if trimSpace spec.gateway ≠ "" then
    .error ("egress: a distinct gateway URL is not yet supported (the " ++
      "server itself is the gateway); remove gateway=" ++ lib.quote spec.gateway)
  else
    .ok ()

/-- `api.IngressTunnelOpt`. -/
structure IngressTunnelOpt where
  enabled : Bool
  (hostMode host : String)

/-- Its `Validate`, with the messages. -/
def IngressTunnelOpt.validate : Option IngressTunnelOpt → Except String Unit
  | none => .ok ()
  | some tunnel =>
    if ["", "auto", "passthrough", "alias", "rewrite"].contains tunnel.hostMode then
      .ok ()
    else
      .error ("ingress.tunnel: unknown hostMode " ++
        lib.quote tunnel.hostMode ++ " (auto, passthrough, alias, rewrite)")

/-- `api.IngressSpec`. -/
structure IngressSpec where
  enabled : Bool
  hosts : List String
  (domain subdomain path pathType : String)
  port : Int
  className : String
  annotations : Dict String
  tls : Option IngressTLS
  tunnel : Option IngressTunnelOpt

def isLabelChar (c : Char) : Bool :=
  ('a' ≤ c && c ≤ 'z') || ('A' ≤ c && c ≤ 'Z') || ('0' ≤ c && c ≤ '9') || c == '-'

/-- One label of `isDNSName`. -/
def isDNSLabel (label : String) : Bool :=
  label.utf8ByteSize != 0 && label.utf8ByteSize ≤ 63 &&
    label.toList.head? != some '-' && label.toList.getLast? != some '-' &&
    label.toList.all isLabelChar

/-- `isDNSName`. -/
def isDNSName (name : String) : Bool :=
  name.utf8ByteSize != 0 && name.utf8ByteSize ≤ 253 && (splitOnChar '.' name).all isDNSLabel

/-- The hosts of an ingress, in order. -/
def validateHosts (lib : Runtime) : List String → Except String Unit
  | [] => .ok ()
  | host :: rest =>
    let host := trimSpace host
    if host = "@" ∨ isDNSName host then
      validateHosts lib rest
    else
      .error ("ingress: host " ++ lib.quote host ++ " is not a valid DNS name")

/-- `IngressSpec.Validate`. -/
def IngressSpec.validate (lib : Runtime) (spec : IngressSpec) : Except String Unit := do
  IngressTunnelOpt.validate lib spec.tunnel
  validateHosts lib spec.hosts
  if trimSpace spec.domain ≠ "" ∧ ¬isDNSName (trimSpace spec.domain) then
    throw ("ingress: domain " ++ lib.quote spec.domain ++ " is not a valid DNS name")
  if spec.pathType ≠ "" ∧ ¬["Prefix", "Exact", "ImplementationSpecific"].contains spec.pathType then
    throw ("ingress: pathType " ++ lib.quote spec.pathType ++
      " must be one of Prefix, Exact, ImplementationSpecific")
  if spec.port < 0 then
    throw ("ingress: port " ++ toString spec.port ++ " must not be negative")

/-- `api.TelemetrySpec`. -/
structure TelemetrySpec where
  enabled : Bool
  (endpoint protocol : String)
  headers : Dict String
  insecure : Bool
  signals : List String
  serviceName : String
  resourceAttributes : Dict String
  (grpcPort httpPort : Int)
  debug : Bool
  viaMux : Option Bool

/-- The loop over the signals in `TelemetrySpec.Validate`. -/
def validateSignals (lib : Runtime) : List String → Except String Unit
  | [] => .ok ()
  | signal :: rest =>
    if ["traces", "metrics", "logs"].contains signal then
      validateSignals lib rest
    else
      .error ("telemetry: signal " ++ lib.quote signal ++ " must be one of traces, metrics, logs")

variable (spec : TelemetrySpec)

/-- Telemetry is asked for. -/
def TelemetrySpec.active : Bool :=
  spec.enabled || trimSpace spec.endpoint != ""

/-- `TelemetrySpec.Validate` for a spec that is not nil. -/
def TelemetrySpec.validate : Except String Unit := do
  if !spec.active then
    return ()
  if ¬["", "grpc", "http", "http/protobuf"].contains spec.protocol then
    throw ("telemetry: protocol " ++ lib.quote spec.protocol ++
      " must be one of grpc, http/protobuf")
  validateSignals lib spec.signals
  if spec.grpcPort < 0 ∨ 65535 < spec.grpcPort then
    throw ("telemetry: grpcPort " ++ toString spec.grpcPort ++ " out of range")
  if spec.httpPort < 0 ∨ 65535 < spec.httpPort then
    throw ("telemetry: httpPort " ++ toString spec.httpPort ++ " out of range")

/-- `api.Healthcheck`. -/
structure Healthcheck where
  test : List String
  (interval timeout startPeriod startInterval : String)
  retries : Int

structure UpdateConfig where
  parallelism : Int
  order : String

/-- `api.Resources`. -/
structure Resources where
  cpuLimit : Float64
  memoryLimit : Int
  reservedCPU : Float64
  reservedMemory : Int

/-- `api.Mount`. -/
structure Mount where
  (source target : String)
  readOnly : Bool
  selinux : String := ""
  noCreateHostPath : Bool := false

/-- `api.VolumeSpec`. -/
structure VolumeSpec where
  name : String := ""
  target : String
  readOnly : Bool
  driver : String := ""
  (driverOpts labels : Dict String := ∅)

/-- `api.NetworkAttachment`. -/
structure NetworkAttachment where
  name : String
  driver : String := ""
  driverOpts : Dict String := ∅
  aliases : List String := []
  default : Bool := false
  (ip subnet gateway ipRange : String := "")
  (internal attachable enableIPv6 : Bool := false)
  labels : Dict String := ∅
  (ipv6 mac : String := "")
  priority : Int := 0

/-- `api.ProxySpec`. -/
structure ProxySpec where
  mode : String
  allow : List String
  ports : Dict (List Int) := ∅

/-- `api.DNSSpec`. -/
structure DNSSpec where
  records : Dict String
  requireUserNet : Bool

/-- `api.DeploySpec`, as far as the translation sets it. -/
structure DeploySpec where
  name : String
  image : String := ""
  (command entrypoint : List String := [])
  env : Dict String := ∅
  ports : List Port := []
  mounts : List Mount := []
  volumes : List VolumeSpec := []
  networks : List NetworkAttachment := []
  proxy : Option ProxySpec := none
  dns : Option DNSSpec := none
  telemetry : Option TelemetrySpec := none
  credentials : Option Credentials := none
  restart : String := ""
  (restartMaxAttempts replicas : Int := 0)
  privileged : Bool := false
  healthcheck : Option Healthcheck := none
  resources : Option Resources := none
  updateConfig : Option UpdateConfig := none
  (user workingDir hostname : String := "")
  labels : Dict String := ∅
  (stopSignal stopGracePeriod : String := "")
  init : Option Bool := none
  (tty stdinOpen readOnly : Bool := false)
  (capAdd capDrop securityOpt groupAdd : List String := [])
  sysctls : Dict String := ∅
  (extraHosts dnsServers dnsSearch dnsOptions : List String := [])
  ulimits : List Ulimit := []
  (tmpfs devices : List String := [])
  shmSize : Int := 0
  (pidMode ipcMode : String := "")
  egress : Option EgressSpec := none
  ingress : Option IngressSpec := none
  agentForward : Bool := false

end Api

/-- `BuildPlan`. -/
structure BuildPlan where
  (context dockerfile : String)
  args : Dict String
  target : String
  cacheFrom : List String
  image : String
  (additionalContexts secrets : Dict String)
  ssh : List String
  labels : Dict String
  (noCache pull : Bool)
  (platforms tags : List String)
  network : String
  (cacheTo extraHosts : List String)
  shmSize : Int
  dockerfileInline : String

/-- `ProviderPlan`. -/
structure ProviderPlan where
  type : String
  flags : List String

/-- `ServicePlan`. -/
structure ServicePlan where
  (service resource : String)
  spec : Api.DeploySpec
  build : Option BuildPlan := none
  provider : Option ProviderPlan := none
  shells : List String := []

end Cornus.Compose
