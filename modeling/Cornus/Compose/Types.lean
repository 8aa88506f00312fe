import Cornus.Lib.Dict

/-!
# The Compose document

The typed form of a Compose file.  `ServiceDocument` and `Service` of the source
have the same fields, so one structure stands for both, and likewise for the
top-level definitions and the `x-cornus-*` blocks.  A nil slice or map is an
empty one; a pointer that may be nil is an `Option`.
-/

namespace Cornus.Compose

/-- An entry of `env_file`. -/
structure EnvFileRef where
  path : String
  required : Bool
  deriving DecidableEq

/-- An entry of `ports`. -/
structure Port where
  (host container : Int := 0)
  (protocol hostIP : String := "")
  deriving DecidableEq

/-- A bind mount, or a volume when `named` is set or `source` is empty. -/
structure Volume where
  (source target : String := "")
  readOnly : Bool := false
  selinux : String := ""
  (named noCreateHostPath : Bool := false)
  deriving DecidableEq

/-- A network of a service. -/
structure ServiceNetwork where
  name : String
  aliases : List String := []
  (ipv4Address ipv6Address macAddress : String := "")
  priority : Int := 0
  deriving DecidableEq

/-- An entry of `depends_on`. -/
structure Dependency where
  service : String
  condition : String := "service_started"
  required : Bool := true
  restart : Bool := false
  deriving DecidableEq

/-- An entry of `ulimits`. -/
structure Ulimit where
  name : String
  (soft hard : Int := 0)
  deriving DecidableEq

/-- A service-level grant of a top-level config or secret: `ConfigRef`,
`SecretRef`, `BuildSecret` and `grantRef` of the source. -/
structure GrantRef where
  source : String
  (target uid gid mode : String := "")
  deriving DecidableEq

/-- The block `build`. -/
structure Build where
  (context dockerfile : String := "")
  args : Dict String := ∅
  target : String := ""
  cacheFrom : List String := []
  additionalContexts : Dict String := ∅
  secrets : List GrantRef := []
  ssh : List String := []
  labels : Dict String := ∅
  (noCache pull : Bool := false)
  (platforms tags : List String := [])
  network : String := ""
  (cacheTo extraHosts : List String := [])
  (shmSize dockerfileInline : String := "")

/-- The block `limits` or `reservations`. -/
structure ResourceLimits where
  (cpus memory : String := "")

structure DeployResources where
  (limits reservations : Option ResourceLimits := none)

/-- The block `restart_policy`. -/
structure DeployRestartPolicy where
  (condition delay : String := "")
  maxAttempts : Int := 0
  window : String := ""

/-- The block `update_config`. -/
structure UpdateConfig where
  parallelism : Int := 0
  (order delay monitor maxFailureRatio : String := "")

/-- The block `deploy`. -/
structure Deploy where
  replicas : Int := 0
  resources : Option DeployResources := none
  restartPolicy : Option DeployRestartPolicy := none
  labels : Dict String := ∅
  updateConfig : Option UpdateConfig := none

/-- The block `healthcheck`. -/
structure Healthcheck where
  test : List String := []
  (interval timeout : String := "")
  retries : Int := 0
  (startPeriod startInterval : String := "")
  disable : Bool := false

/-- The block `extends`. -/
structure Extends where
  service : String
  file : String := ""

structure ProviderOption where
  key : String
  values : List String

/-- The block `provider`. -/
structure Provider where
  type : String := ""
  options : List ProviderOption := []

/-- A rule of the block `x-cornus-egress`. -/
structure EgressRule where
  (pattern route : String)

/-- An `x-cornus-egress` block. -/
structure Egress where
  (mode gateway : String := "")
  proxies : Dict String := ∅
  rules : List EgressRule := []
  (script default : String := "")
  listenPort : Int := 0

/-- An `x-cornus-telemetry` block. -/
structure Telemetry where
  (endpoint protocol : String := "")
  headers : Dict String := ∅
  insecure : Bool := false
  signals : List String := []
  serviceName : String := ""
  resourceAttributes : Dict String := ∅
  (grpcPort httpPort : Int := 0)
  debug : Bool := false
  viaMux : Option Bool := none

/-- How a credential reaches the service. -/
structure CredentialDelivery where
  (kind provider : String := "")
  wellKnown : Bool := false
  (upstream path format envVar valueKey : String := "")

/-- Where a credential comes from. -/
structure CredentialSource where
  (name backend : String := "")
  config : Dict String := ∅
  ttl : String := ""
  deliveries : List CredentialDelivery := []

/-- An `x-cornus-credentials` block. -/
structure Credentials where
  sources : List CredentialSource := []

structure IngressTLS where
  (secretName clusterIssuer : String := "")

structure IngressTunnel where
  (hostMode host : String := "")
  disabled : Bool := false

/-- An `x-cornus-ingress` block. -/
structure Ingress where
  host : String := ""
  hosts : List String := []
  (domain subdomain path pathType : String := "")
  port : Int := 0
  className : String := ""
  annotations : Dict String := ∅
  tls : Option IngressTLS := none
  tunnel : Option IngressTunnel := none

/-- A service of a Compose file. -/
structure Service where
  image : String := ""
  build : Option Build := none
  (entrypoint command : List String := [])
  environment : Dict String := ∅
  envFile : List EnvFileRef := []
  ports : List Port := []
  expose : List Int := []
  volumes : List Volume := []
  networks : List ServiceNetwork := []
  restart : String := ""
  dependsOn : List Dependency := []
  deploy : Option Deploy := none
  healthcheck : Option Healthcheck := none
  containerName : String := ""
  privileged : Bool := false
  (user workingDir hostname : String := "")
  labels : Dict String := ∅
  (stopSignal stopGracePeriod : String := "")
  init : Option Bool := none
  (tty stdinOpen readOnly : Bool := false)
  (capAdd capDrop securityOpt groupAdd : List String := [])
  sysctls : Dict String := ∅
  (extraHosts dns dnsSearch dnsOpt : List String := [])
  ulimits : List Ulimit := []
  (tmpfs devices : List String := [])
  (shmSize pid ipc memLimit cpus : String := "")
  (configs secrets : List GrantRef := [])
  profiles : List String := []
  extendsRef : Option Extends := none
  provider : Option Provider := none
  egress : Option Egress := none
  ingress : Option Ingress := none
  agentForward : Bool := false
  telemetry : Option Telemetry := none
  credentials : Option Credentials := none
  shells : List String := []

/-- A definition under `secrets`. -/
structure SecretDef where
  (file environment : String := "")
  external : Bool := false
  name : String := ""

/-- A definition under `configs`. -/
structure ConfigDef where
  (file content environment : String := "")
  external : Bool := false
  name : String := ""

/-- A definition under `volumes`. -/
structure VolumeDef where
  external : Bool := false
  (name driver : String := "")
  (driverOpts labels : Dict String := ∅)

/-- An address range of a network. -/
structure IPAMConfig where
  (subnet gateway ipRange : String := "")

/-- A top-level network definition; `ipam` is the `ipam.config` list when the
definition has an `ipam` block. -/
structure NetworkDef where
  external : Bool := false
  (name driver : String := "")
  driverOpts : Dict String := ∅
  ipam : Option (List IPAMConfig) := none
  (attachable internal enableIPv6 : Bool := false)
  labels : Dict String := ∅

end Cornus.Compose
