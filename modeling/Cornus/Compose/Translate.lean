import Cornus.Compose.Spec
import Mathlib.Algebra.Group.Int.Defs

/-!
# Translating one service

`translateService` and the functions it calls.  Errors carry the source's
texts; warnings are not modelled.
-/

namespace Cornus.Compose

section Blocks

variable (lib : Runtime)

/-- `translateEgress`, which validates the result. -/
def translateEgress (egress : Egress) : Except String Api.EgressSpec := do
  let spec : Api.EgressSpec :=
    { mode := egress.mode, gateway := egress.gateway, proxies := egress.proxies,
      rules := egress.rules, script := egress.script, default := egress.default,
      listenPort := egress.listenPort }
  spec.validate lib
  return spec

/-- `translateTelemetry`, which validates the result. -/
def translateTelemetry (telemetry : Telemetry) : Except String Api.TelemetrySpec := do
  let spec : Api.TelemetrySpec :=
    { enabled := true, endpoint := telemetry.endpoint, protocol := telemetry.protocol,
      headers := telemetry.headers, insecure := telemetry.insecure, signals := telemetry.signals,
      serviceName := telemetry.serviceName, resourceAttributes := telemetry.resourceAttributes,
      grpcPort := telemetry.grpcPort, httpPort := telemetry.httpPort, debug := telemetry.debug,
      viaMux := telemetry.viaMux }
  spec.validate lib
  return spec

/-- The path of a credential source in a message. -/
def sourcePath (i : Nat) (name : String) : String :=
  "credentials.sources[" ++ toString i ++ "] (" ++ name ++ ")"

/-- The checks on one delivery in `translateCredentials`. -/
def checkDelivery (i : Nat) (name : String) (j : Nat)
    (delivery : CredentialDelivery) : Except String Unit :=
  let path := sourcePath i name ++ ": deliveries[" ++ toString j ++ "]: "
  if ¬["", "endpoint", "file", "env"].contains delivery.kind then
    .error (path ++ "unknown kind " ++ lib.quote delivery.kind ++ " (want endpoint, file, or env)")
  else if delivery.kind = "file" ∧ delivery.path = "" then
    .error (path ++ "kind file needs a path")
  else if delivery.kind = "env" ∧ delivery.envVar = "" then
    .error (path ++ "kind env needs env_var")
  else
    .ok ()

/-- The inner loop of `translateCredentials`, from delivery `j` on. -/
def checkDeliveries (i : Nat) (name : String) : Nat → List CredentialDelivery → Except String Unit
  | _, [] => .ok ()
  | j, delivery :: rest => do
    checkDelivery lib i name j delivery
    checkDeliveries i name (j + 1) rest

/-- The outer loop of `translateCredentials`, from source `i` on; `seen` holds
the names of the sources before. -/
def checkSources (i : Nat) (seen : List String) : List CredentialSource → Except String Unit
  | [] => .ok ()
  | source :: rest => do
    if source.name = "" then
      throw ("credentials.sources[" ++ toString i ++ "]: name is required")
    if seen.contains source.name then
      throw ("credentials.sources[" ++ toString i ++ "]: duplicate name " ++ lib.quote source.name)
    if source.backend = "" then
      throw (sourcePath i source.name ++ ": backend is required")
    checkDeliveries lib i source.name 0 source.deliveries
    checkSources (i + 1) (source.name :: seen) rest

/-- `translateCredentials`.  A nil block and one without sources both leave
credentials off; the copied sources equal the block's. -/
def translateCredentials : Option Credentials → Except String (Option Credentials)
  | none => .ok none
  | some credentials =>
    if credentials.sources = [] then
      .ok none
    else do
      checkSources lib 0 [] credentials.sources
      return some credentials

/-- `translateIngress`. -/
def translateIngress (ingress : Ingress) : Except String Api.IngressSpec := do
  let hosts := (if ingress.host ≠ "" then [ingress.host] else []) ++ ingress.hosts
  let tunnel := ingress.tunnel.bind fun tunnel =>
    if tunnel.disabled then
      none
    else
      some { enabled := true, hostMode := tunnel.hostMode, host := tunnel.host }
  let spec : Api.IngressSpec :=
    { enabled := true, hosts, domain := ingress.domain, subdomain := ingress.subdomain,
      path := ingress.path, pathType := ingress.pathType, port := ingress.port,
      className := ingress.className, annotations := ingress.annotations, tls := ingress.tls,
      tunnel }
  spec.validate lib
  return spec

/-- `parseCPUs`. -/
def parseCPUs (text : String) : Except String Float64 :=
  if trimSpace text = "" then .ok 0 else lib.parseFloat (trimSpace text)

/-- The multiplier a size unit stands for, once `b` and then `i` are cut from
its end. -/
def sizeUnit (unit : String) : Option Nat :=
  let chars := unit.toList
  let chars := if chars.getLast? = some 'b' then chars.dropLast else chars
  let chars := if chars.getLast? = some 'i' then chars.dropLast else chars
  if chars = [] then some 1
  else if chars = ['k'] then some (2 ^ 10)
  else if chars = ['m'] then some (2 ^ 20)
  else if chars = ['g'] then some (2 ^ 30)
  else if chars = ['t'] then some (2 ^ 40)
  else none

def isSizeDigit (c : Char) : Bool :=
  ('0' ≤ c && c ≤ '9') || c == '.'

/-- `parseSize`: a number and a unit. -/
def parseSize (text : String) : Except String Int :=
  let text := trimSpace text
  if text = "" then
    .ok 0
  else
    let number := String.ofList (text.toList.takeWhile isSizeDigit)
    let unit := lib.toLower (trimSpace (String.ofList (text.toList.dropWhile isSizeDigit)))
    if number = "" then
      .error ("invalid size " ++ lib.quote text)
    else
      match lib.parseFloat number with
      | .error cause =>
        .error ("invalid size " ++ lib.quote text ++ ": " ++ cause)
      | .ok value =>
        match sizeUnit unit with
        | none => .error ("invalid size unit in " ++ lib.quote text)
        | some mult => .ok (lib.scale value mult)

end Blocks

/-- An error names the field it comes from. -/
def inField {Result : Type} (field : String) : Except String Result → Except String Result
  | .ok result => .ok result
  | .error cause => .error (field ++ ": " ++ cause)

def decimal (digits : List Char) : Nat :=
  digits.foldl (fun value c => 10 * value + (c.toNat - '0'.toNat)) 0

/-- `strconv.Atoi`, with the value 0 where it fails. -/
def atoi (text : List Char) : Int :=
  let digits := match text with
    | '+' :: rest => rest
    | '-' :: rest => rest
    | rest => rest
  if digits ≠ [] ∧ digits.all Char.isDigit then
    let value : Int := if text.head? = some '-' then -(decimal digits : Int)
      else decimal digits
    -- Out of range, `Atoi` still returns the nearest value.
    max (-2 ^ 63) (min (2 ^ 63 - 1) value)
  else
    0

/-- The policy and the count of `on-failure:n`. -/
def splitRestart (restart : String) : String × Int :=
  let mark := "on-failure:".toList
  if mark.isPrefixOf restart.toList then
    ("on-failure", atoi (restart.toList.drop mark.length))
  else
    (restart, 0)

variable (check : Healthcheck)

/-- The test in the form of the engine. -/
def Healthcheck.dockerTest : List String :=
  if check.disable then
    ["NONE"]
  else
    match check.test with
    | [] => []
    | first :: rest =>
      if ["NONE", "CMD", "CMD-SHELL"].contains first then first :: rest
      else if rest = [] then ["CMD-SHELL", first]
      else "CMD" :: first :: rest

/-- The condition under `deploy`, as a policy. -/
def mapRestartCondition (condition : String) : String :=
  let condition := trimSpace condition
  if condition = "none" then "no"
  else if condition = "on-failure" then "on-failure"
  else if condition = "any" then "always"
  else ""

/-- The options of a provider as flags. -/
def providerFlags (options : List ProviderOption) : List String :=
  options.flatMap fun option =>
    option.values.map fun value => "--" ++ option.key ++ "=" ++ value

/-- The labels, those under `deploy` last. -/
def mergeDeployLabels (svc : Service) : Dict String :=
  svc.labels.overlay ((svc.deploy.map Deploy.labels).getD ∅)

variable (lib : Runtime)

/-- The limits and reservations of a service. -/
def serviceResources (svc : Service) : Except String (Option Api.Resources) := do
  let limits := (svc.deploy.bind Deploy.resources).bind DeployResources.limits
  let reservations :=
    (svc.deploy.bind Deploy.resources).bind DeployResources.reservations
  let cpu ← match limits with
    | none => pure 0
    | some limits =>
      inField "deploy.resources.limits.cpus" (parseCPUs lib limits.cpus)
  let mem ← match limits with
    | none => pure 0
    | some limits =>
      inField "deploy.resources.limits.memory" (parseSize lib limits.memory)
  let cpu ← if cpu.isZero then inField "cpus" (parseCPUs lib svc.cpus)
    else pure cpu
  let mem ← if mem = 0 then inField "mem_limit" (parseSize lib svc.memLimit)
    else pure mem
  let reservedCPU ← match reservations with
    | none => pure 0
    | some reservations =>
      inField "deploy.resources.reservations.cpus" (parseCPUs lib reservations.cpus)
  let reservedMemory ← match reservations with
    | none => pure 0
    | some reservations =>
      inField "deploy.resources.reservations.memory" (parseSize lib reservations.memory)
  if cpu.isZero ∧ mem = 0 ∧ reservedCPU.isZero ∧ reservedMemory = 0 then
    return none
  else
    return some { cpuLimit := cpu, memoryLimit := mem, reservedCPU, reservedMemory }

variable (projectName source : String)

/-- `volumeResourceName` and `networkResourceName`, given the name and the
`external` flag of the top-level definition when there is one. -/
def resourceName : Option (String × Bool) → String
  | some (name, external) =>
    if name ≠ "" then name
    else if external then source
    else projectName ++ "_" ++ source
  | none => projectName ++ "_" ++ source

/-- The name of a volume in the cluster. -/
def volumeResourceName (defs : Dict VolumeDef) : String :=
  resourceName projectName source ((defs.lookup source).map fun def_ => (def_.name, def_.external))

/-- The name of a network in the cluster. -/
def networkResourceName (defs : Dict NetworkDef) : String :=
  resourceName projectName source ((defs.lookup source).map fun def_ => (def_.name, def_.external))

/-- The loop of `networkAliases`, over names not yet looked at. -/
def addAliases (aliases : List String) : List String → List String
  | [] => aliases
  | name :: rest =>
    if name = "" ∨ name ∈ aliases then addAliases aliases rest
    else addAliases (aliases ++ [name]) rest

/-- The service, the container and the declared aliases. -/
def networkAliases (service containerName : String) (declared : List String) : List String :=
  addAliases [service] (containerName :: declared)

/-- `grantMounts`.  `fileOf` gives the file of a defined source. -/
def grantMounts (lib : Runtime) (service kind targetRoot : String)
    (fileOf : String → Option String) : List GrantRef → Except String (List Api.Mount)
  | [] => .ok []
  | ref :: rest =>
    match fileOf ref.source with
    | none =>
      .error (kind ++ " " ++ lib.quote ref.source ++
        " referenced by service " ++ lib.quote service ++ " is not defined at the top level")
    | some file => do
      let mounts ← grantMounts lib service kind targetRoot fileOf rest
      if file = "" then
        return mounts
      else
        let target :=
          if ref.target = "" then targetRoot ++ ref.source
          else if ref.target.toList.head? = some '/' then ref.target
          else targetRoot ++ ref.target
        return { source := file, target, readOnly := true } :: mounts

/-- The volumes with a name, and the anonymous ones. -/
def translateVolumes (defs : Dict VolumeDef) (volumes : List Volume) : List Api.VolumeSpec :=
  volumes.filterMap fun vol =>
    if vol.source = "" ∧ vol.target ≠ "" then
      some { target := vol.target, readOnly := vol.readOnly }
    else if vol.named then
      let name := volumeResourceName projectName vol.source defs
      match defs.lookup vol.source with
      | some def_ =>
        if def_.external then
          some { name, target := vol.target, readOnly := vol.readOnly }
        else
          some
            { name, target := vol.target, readOnly := vol.readOnly, driver := def_.driver,
              driverOpts := def_.driverOpts, labels := def_.labels }
      | none =>
        some { name, target := vol.target, readOnly := vol.readOnly }
    else
      none

/-- The bind mounts. -/
def translateMounts (volumes : List Volume) : List Api.Mount :=
  volumes.filterMap fun vol =>
    if (vol.source = "" ∧ vol.target ≠ "") ∨ vol.named ∨ vol.source = "" then
      none
    else
      some
        { source := vol.source, target := vol.target, readOnly := vol.readOnly,
          selinux := vol.selinux, noCreateHostPath := vol.noCreateHostPath }

/-- A service without `networks` joins the project's default network. -/
def Service.attachments (svc : Service) : List ServiceNetwork :=
  if svc.networks = [] then [{ name := "default" }] else svc.networks

/-- One attachment of the network loop in `translateService`. -/
def translateNetwork (projectName name containerName : String)
    (networks : Dict NetworkDef) (sn : ServiceNetwork) :
    Api.NetworkAttachment :=
  let attachment : Api.NetworkAttachment :=
    { name := networkResourceName projectName sn.name networks,
      aliases := networkAliases name containerName sn.aliases, ip := sn.ipv4Address,
      ipv6 := sn.ipv6Address, mac := sn.macAddress, priority := sn.priority }
  match networks.lookup sn.name with
  | none => attachment
  | some def_ =>
    let config := (def_.ipam.bind List.head?).getD {}
    { attachment with
      driver := def_.driver, driverOpts := def_.driverOpts,
      subnet := config.subnet, gateway := config.gateway, ipRange := config.ipRange,
      attachable := def_.attachable, internal := def_.internal, enableIPv6 := def_.enableIPv6,
      labels := def_.labels }

/-- The secrets that a build is granted. -/
def buildSecrets (secrets : Dict SecretDef) (refs : List GrantRef) : Dict String :=
  refs.foldl (fun found ref =>
    match secrets.lookup ref.source with
    | none => found
    | some def_ =>
      if def_.file = "" then found else found.put ref.source def_.file) ∅

/-- `translateBuild`. -/
def translateBuild (image : String) (secrets : Dict SecretDef)
    (build : Build) : Except String BuildPlan := do
  let shmSize ← inField "build.shm_size" (parseSize lib build.shmSize)
  return {
    context := build.context
    dockerfile := build.dockerfile
    args := build.args
    target := build.target
    cacheFrom := build.cacheFrom
    image
    additionalContexts := build.additionalContexts
    secrets := buildSecrets secrets build.secrets
    ssh := build.ssh
    labels := build.labels
    noCache := build.noCache
    pull := build.pull
    platforms := build.platforms
    tags := build.tags
    network := build.network
    cacheTo := build.cacheTo
    extraHosts := build.extraHosts
    shmSize
    dockerfileInline := build.dockerfileInline }

/-- The top-level definitions a service is translated against. -/
structure Definitions where
  secrets : Dict SecretDef := ∅
  configs : Dict ConfigDef := ∅
  volumes : Dict VolumeDef := ∅
  networks : Dict NetworkDef := ∅

variable (projectName name : String)

/-- The name of a service in the cluster. -/
def serviceResourceName : String :=
  projectName ++ "-" ++ name

/-- A service that a provider runs. -/
def translateProvider (svc : Service) (provider : Provider) : Except String ServicePlan :=
  let resource := serviceResourceName projectName name
  -- The backquotes of the message are U+0060.
  let mark := String.ofList [Char.ofNat 0x60]
  if svc.image ≠ "" ∨ svc.build.isSome ∨ svc.deploy.isSome then
    .error (mark ++ "provider" ++ mark ++
      " cannot be combined with image, build, or deploy")
  else if provider.type = "" then
    .error "provider.type is required"
  else
    .ok
      { service := name
        resource
        spec := { name := resource }
        provider := some
          { type := provider.type, flags := providerFlags provider.options } }

/-- The ingress part of `translateService`: the host is derived per project when
neither a host nor a subdomain is given. -/
def serviceIngress (ingress : Ingress) : Except String Api.IngressSpec := do
  let spec ← translateIngress lib ingress
  if spec.hosts = [] ∧ spec.subdomain = "" then
    return { spec with subdomain := name ++ "." ++ projectName }
  else
    return spec

/-- The restart policy and its retry count, with `deploy.restart_policy` taking
precedence. -/
def serviceRestart (svc : Service) : String × Int :=
  match svc.deploy.bind Deploy.restartPolicy with
  | none => splitRestart svc.restart
  | some policy =>
    let condition := mapRestartCondition policy.condition
    (if condition ≠ "" then condition else (splitRestart svc.restart).1,
      policy.maxAttempts)

/-- The health check, where it has a test. -/
def serviceHealthcheck : Option Api.Healthcheck :=
  if check.dockerTest = [] then
    none
  else
    some
      { test := check.dockerTest, interval := check.interval, timeout := check.timeout,
        startPeriod := check.startPeriod, startInterval := check.startInterval,
        retries := check.retries }

/-- `translateService` for a service that is not a provider. -/
def translateContainer (svc : Service) (defs : Definitions) : Except String ServicePlan := do
  let resource := serviceResourceName projectName name
  let shmSize ← inField "shm_size" (parseSize lib svc.shmSize)
  let resources ← serviceResources lib svc
  let configMounts ← grantMounts lib name "config" "/"
    (fun source => (defs.configs.lookup source).map ConfigDef.file) svc.configs
  let secretMounts ← grantMounts lib name "secret" "/run/secrets/"
    (fun source => (defs.secrets.lookup source).map SecretDef.file) svc.secrets
  let egress ← svc.egress.mapM (translateEgress lib)
  let ingress ← svc.ingress.mapM (serviceIngress lib projectName name)
  let telemetry ← inField ("service " ++ lib.quote name)
    (svc.telemetry.mapM (translateTelemetry lib))
  let credentials ← inField ("service " ++ lib.quote name)
    (translateCredentials lib svc.credentials)
  let build ← svc.build.mapM (translateBuild lib svc.image defs.secrets)
  let spec : Api.DeploySpec :=
    { name := resource
      image := svc.image
      entrypoint := svc.entrypoint
      command := svc.command
      env := svc.environment
      restart := (serviceRestart svc).1
      restartMaxAttempts := (serviceRestart svc).2
      privileged := svc.privileged
      user := svc.user
      workingDir := svc.workingDir
      hostname := svc.hostname
      labels := mergeDeployLabels svc
      stopSignal := svc.stopSignal
      stopGracePeriod := svc.stopGracePeriod
      init := svc.init
      tty := svc.tty
      stdinOpen := svc.stdinOpen
      readOnly := svc.readOnly
      capAdd := svc.capAdd
      capDrop := svc.capDrop
      securityOpt := svc.securityOpt
      groupAdd := svc.groupAdd
      sysctls := svc.sysctls
      extraHosts := svc.extraHosts
      dnsServers := svc.dns
      dnsSearch := svc.dnsSearch
      dnsOptions := svc.dnsOpt
      ulimits := svc.ulimits
      tmpfs := svc.tmpfs
      devices := svc.devices
      shmSize
      pidMode := svc.pid
      ipcMode := svc.ipc
      replicas := (svc.deploy.map Deploy.replicas).getD 0
      updateConfig := (svc.deploy.bind Deploy.updateConfig).map fun config =>
        { parallelism := config.parallelism, order := config.order }
      resources
      healthcheck := svc.healthcheck.bind serviceHealthcheck
      ports := svc.ports
      volumes := translateVolumes projectName defs.volumes svc.volumes
      mounts := translateMounts svc.volumes ++ configMounts ++ secretMounts
      networks := svc.attachments.map
        (translateNetwork projectName name svc.containerName defs.networks)
      egress
      ingress
      agentForward := svc.agentForward
      telemetry
      credentials }
  return {
    service := name
    resource
    spec
    build
    shells := svc.shells }

/-- `translateService`. -/
def translateService (svc : Service) (defs : Definitions) : Except String ServicePlan :=
  match svc.provider with
  | some provider => translateProvider projectName name svc provider
  | none => translateContainer lib projectName name svc defs

end Cornus.Compose
