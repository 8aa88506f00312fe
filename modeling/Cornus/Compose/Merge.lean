import Cornus.Compose.Types

/-!
# Merging Compose definitions

The field-level merge used for several `-f` files, for `extends` and for
`include`.  A file's metadata says which keys it wrote and which values carried
`!reset` or `!override`; the merge consults it in step with the typed document.
-/

namespace Cornus.Compose

/-- `yamlMeta`: the tags of one value, and the metadata of the keys written
under it. -/
inductive YamlMeta where
  | node (reset override : Bool) (fields : List (String × YamlMeta))

namespace YamlMeta

/-- The tag `!reset`. -/
def reset : YamlMeta → Bool
  | node reset _ _ => reset

/-- The tag `!override`. -/
def override : YamlMeta → Bool
  | node _ override _ => override

/-- The metadata of the members. -/
def fields : YamlMeta → List (String × YamlMeta)
  | node _ _ fields => fields

variable (m : Option YamlMeta) (name : String)

/-- `yamlMeta.at`; `none` is the nil pointer. -/
def key : Option YamlMeta :=
  m.bind fun own => own.fields.lookup name

/-- The file writes the member. -/
def has : Bool :=
  (key m name).isSome

/-- The value is tagged `!reset`. -/
def cleared : Bool :=
  m.any YamlMeta.reset

/-- The value is tagged `!override`. -/
def replaced : Bool :=
  m.any YamlMeta.override

end YamlMeta

open YamlMeta

variable {Value : Type}

/-- The override's value when it wins, else the base's. -/
def pick (wins : Bool) (base override : Value) : Value :=
  if wins then override else base

/-- `overrideScalar`; the zero value is `default`. -/
def overrideScalar [Inhabited Value] [DecidableEq Value]
    (m : Option YamlMeta) (name : String) (base override : Value) : Value :=
  pick (has m name || decide (override ≠ default)) base override

variable (m : Option YamlMeta)

/-- A value that is written or set replaces the base's. -/
def overridePtr (name : String) (base override : Option Value) : Option Value :=
  pick (has m name || override.isSome) base override

/-- A list that is written or not empty replaces the base's. -/
def overrideWhole (name : String) (base override : List Value) : List Value :=
  pick (has m name || !override.isEmpty) base override

/-- The items that are not there yet, appended. -/
def addNew {Value : Type} [DecidableEq Value] (out : List Value) : List Value → List Value
  | [] => out
  | item :: rest =>
    if item ∈ out then addNew out rest else addNew (out ++ [item]) rest

/-- `appendDedup`. -/
def appendDedup [DecidableEq Value] (base override : List Value) : List Value :=
  addNew (addNew [] base) override

/-- A list, by its tag: cleared, replaced or appended. -/
def mergeSeq [DecidableEq Value] (m : Option YamlMeta)
    (name : String) (base override : List Value) : List Value :=
  if cleared (key m name) then []
  else if replaced (key m name) then appendDedup [] override
  else appendDedup base override

variable (m : Option YamlMeta)

/-- A mapping, by its tag: cleared, replaced or overlaid. -/
def mergeMapping (name : String) (base override : Dict String) : Dict String :=
  if cleared (key m name) then ∅
  else if replaced (key m name) then override
  else base.overlay override

/-- The last item that passes the test is changed. -/
def modifyLast {Item : Type} (test : Item → Bool) (change : Item → Item) : List Item → List Item
  | [] => []
  | item :: rest =>
    if rest.any test then item :: modifyLast test change rest
    else if test item then change item :: rest
    else item :: rest

/-- One turn of a by-name merge: the index of the source points to the last item
of a name. -/
def upsert {Item : Type} (name : Item → String)
    (combine : Item → Item → Item) (out : List Item) (item : Item) : List Item :=
  if out.any fun other => name other = name item then
    modifyLast (fun other => name other = name item) (combine · item) out
  else
    out ++ [item]

/-- A merge of lists by name; `m` is the metadata of the list itself. -/
def mergeNamed {Item : Type} (name : Item → String)
    (combine : Item → Item → Item) (m : Option YamlMeta) (base override : List Item) : List Item :=
  if cleared m then []
  else override.foldl (upsert name combine) (if replaced m then [] else base)

/-- Two attachments to one network; `m` is the override's metadata. -/
def mergeAttachment (base override : ServiceNetwork) : ServiceNetwork :=
  { base with
    aliases := mergeSeq m "aliases" base.aliases override.aliases
    ipv4Address :=
      overrideScalar m "ipv4_address" base.ipv4Address override.ipv4Address
    ipv6Address :=
      overrideScalar m "ipv6_address" base.ipv6Address override.ipv6Address
    macAddress :=
      overrideScalar m "mac_address" base.macAddress override.macAddress
    priority := overrideScalar m "priority" base.priority override.priority }

/-- `mergeServiceNetworks`, by name. -/
def mergeServiceNetworks (base override : List ServiceNetwork) : List ServiceNetwork :=
  mergeNamed ServiceNetwork.name
    (fun own other => mergeAttachment (key m other.name) own other) m base override

/-- `mergeUlimits`, by name. -/
def mergeUlimits (base override : List Ulimit) : List Ulimit :=
  mergeNamed Ulimit.name (fun _ other => other) m base override

/-- `mergeDependsOn`, by service. -/
def mergeDependsOn (base override : List Dependency) : List Dependency :=
  mergeNamed Dependency.service (fun _ other => other) m base override

/-- The shape shared by the merges of nested blocks; `m` is the block's own
metadata. -/
def mergeBlock {Block : Type} (mergeFields : Block → Block → Block)
    (m : Option YamlMeta) (base override : Option Block) : Option Block :=
  if cleared m then none
  else if replaced m then override
  else
    match base, override with
    | none, other => other
    | some own, none => some own
    | some own, some other => some (mergeFields own other)

/-- The fields of two `build` blocks. -/
def mergeBuildFields (own other : Build) : Build :=
  { context := overrideScalar m "context" own.context other.context
    dockerfile :=
      overrideScalar m "dockerfile" own.dockerfile other.dockerfile
    target := overrideScalar m "target" own.target other.target
    network := overrideScalar m "network" own.network other.network
    shmSize := overrideScalar m "shm_size" own.shmSize other.shmSize
    dockerfileInline := overrideScalar m "dockerfile_inline"
      own.dockerfileInline other.dockerfileInline
    noCache := overrideScalar m "no_cache" own.noCache other.noCache
    pull := overrideScalar m "pull" own.pull other.pull
    args := mergeMapping m "args" own.args other.args
    additionalContexts := mergeMapping m "additional_contexts"
      own.additionalContexts other.additionalContexts
    labels := mergeMapping m "labels" own.labels other.labels
    cacheFrom := mergeSeq m "cache_from" own.cacheFrom other.cacheFrom
    secrets := mergeSeq m "secrets" own.secrets other.secrets
    ssh := mergeSeq m "ssh" own.ssh other.ssh
    platforms := mergeSeq m "platforms" own.platforms other.platforms
    tags := mergeSeq m "tags" own.tags other.tags
    cacheTo := mergeSeq m "cache_to" own.cacheTo other.cacheTo
    extraHosts := mergeSeq m "extra_hosts" own.extraHosts other.extraHosts }

/-- `mergeBuild`. -/
def mergeBuild (base override : Option Build) : Option Build :=
  mergeBlock (mergeBuildFields m) m base override

def mergeResourceLimitsFields (own other : ResourceLimits) : ResourceLimits :=
  { cpus := overrideScalar m "cpus" own.cpus other.cpus
    memory := overrideScalar m "memory" own.memory other.memory }

def mergeResourceLimits (base override : Option ResourceLimits) : Option ResourceLimits :=
  mergeBlock (mergeResourceLimitsFields m) m base override

def mergeDeployResourcesFields (own other : DeployResources) : DeployResources :=
  { limits := mergeResourceLimits (key m "limits") own.limits other.limits
    reservations := mergeResourceLimits (key m "reservations") own.reservations other.reservations }

def mergeDeployResources (base override : Option DeployResources) : Option DeployResources :=
  mergeBlock (mergeDeployResourcesFields m) m base override

def mergeDeployRestartPolicyFields (own other : DeployRestartPolicy) : DeployRestartPolicy :=
  { condition := overrideScalar m "condition" own.condition other.condition
    delay := overrideScalar m "delay" own.delay other.delay
    maxAttempts :=
      overrideScalar m "max_attempts" own.maxAttempts other.maxAttempts
    window := overrideScalar m "window" own.window other.window }

def mergeDeployRestartPolicy (base override : Option DeployRestartPolicy) :
    Option DeployRestartPolicy :=
  mergeBlock (mergeDeployRestartPolicyFields m) m base override

def mergeUpdateConfigFields (own other : UpdateConfig) : UpdateConfig :=
  { parallelism :=
      overrideScalar m "parallelism" own.parallelism other.parallelism
    order := overrideScalar m "order" own.order other.order
    delay := overrideScalar m "delay" own.delay other.delay
    monitor := overrideScalar m "monitor" own.monitor other.monitor
    maxFailureRatio := overrideScalar m "max_failure_ratio"
      own.maxFailureRatio other.maxFailureRatio }

def mergeUpdateConfig (base override : Option UpdateConfig) : Option UpdateConfig :=
  mergeBlock (mergeUpdateConfigFields m) m base override

/-- The fields of two `deploy` blocks. -/
def mergeDeployFields (own other : Deploy) : Deploy :=
  { replicas := overrideScalar m "replicas" own.replicas other.replicas
    resources := mergeDeployResources (key m "resources") own.resources other.resources
    restartPolicy := mergeDeployRestartPolicy (key m "restart_policy")
      own.restartPolicy other.restartPolicy
    updateConfig := mergeUpdateConfig (key m "update_config") own.updateConfig other.updateConfig
    labels := mergeMapping m "labels" own.labels other.labels }

/-- `mergeDeploy`. -/
def mergeDeploy (base override : Option Deploy) : Option Deploy :=
  mergeBlock (mergeDeployFields m) m base override

/-- The fields of two `healthcheck` blocks. -/
def mergeHealthcheckFields (own other : Healthcheck) : Healthcheck :=
  { test := overrideWhole m "test" own.test other.test
    interval := overrideScalar m "interval" own.interval other.interval
    timeout := overrideScalar m "timeout" own.timeout other.timeout
    retries := overrideScalar m "retries" own.retries other.retries
    startPeriod :=
      overrideScalar m "start_period" own.startPeriod other.startPeriod
    startInterval :=
      overrideScalar m "start_interval" own.startInterval other.startInterval
    disable := overrideScalar m "disable" own.disable other.disable }

/-- `mergeHealthcheck`. -/
def mergeHealthcheck (base override : Option Healthcheck) : Option Healthcheck :=
  mergeBlock (mergeHealthcheckFields m) m base override

/-- `mergeService`, field by field. -/
def mergeService (base override : Service) : Service :=
  { base with
    image := overrideScalar m "image" base.image override.image
    restart := overrideScalar m "restart" base.restart override.restart
    containerName := overrideScalar m "container_name" base.containerName override.containerName
    privileged :=
      overrideScalar m "privileged" base.privileged override.privileged
    user := overrideScalar m "user" base.user override.user
    workingDir :=
      overrideScalar m "working_dir" base.workingDir override.workingDir
    hostname := overrideScalar m "hostname" base.hostname override.hostname
    stopSignal :=
      overrideScalar m "stop_signal" base.stopSignal override.stopSignal
    stopGracePeriod := overrideScalar m "stop_grace_period"
      base.stopGracePeriod override.stopGracePeriod
    init := overridePtr m "init" base.init override.init
    tty := overrideScalar m "tty" base.tty override.tty
    stdinOpen := overrideScalar m "stdin_open" base.stdinOpen override.stdinOpen
    readOnly := overrideScalar m "read_only" base.readOnly override.readOnly
    shmSize := overrideScalar m "shm_size" base.shmSize override.shmSize
    pid := overrideScalar m "pid" base.pid override.pid
    ipc := overrideScalar m "ipc" base.ipc override.ipc
    memLimit := overrideScalar m "mem_limit" base.memLimit override.memLimit
    cpus := overrideScalar m "cpus" base.cpus override.cpus
    agentForward := overrideScalar m "x-cornus-agent-forward"
      base.agentForward override.agentForward
    labels := mergeMapping m "labels" base.labels override.labels
    command := overrideWhole m "command" base.command override.command
    entrypoint :=
      overrideWhole m "entrypoint" base.entrypoint override.entrypoint
    shells := overrideWhole m "x-cornus-shells" base.shells override.shells
    environment :=
      mergeMapping m "environment" base.environment override.environment
    envFile := mergeSeq m "env_file" base.envFile override.envFile
    ports := mergeSeq m "ports" base.ports override.ports
    expose := mergeSeq m "expose" base.expose override.expose
    volumes := mergeSeq m "volumes" base.volumes override.volumes
    profiles := mergeSeq m "profiles" base.profiles override.profiles
    configs := mergeSeq m "configs" base.configs override.configs
    secrets := mergeSeq m "secrets" base.secrets override.secrets
    capAdd := mergeSeq m "cap_add" base.capAdd override.capAdd
    capDrop := mergeSeq m "cap_drop" base.capDrop override.capDrop
    securityOpt :=
      mergeSeq m "security_opt" base.securityOpt override.securityOpt
    groupAdd := mergeSeq m "group_add" base.groupAdd override.groupAdd
    extraHosts := mergeSeq m "extra_hosts" base.extraHosts override.extraHosts
    dns := mergeSeq m "dns" base.dns override.dns
    dnsSearch := mergeSeq m "dns_search" base.dnsSearch override.dnsSearch
    dnsOpt := mergeSeq m "dns_opt" base.dnsOpt override.dnsOpt
    sysctls := mergeMapping m "sysctls" base.sysctls override.sysctls
    tmpfs := mergeSeq m "tmpfs" base.tmpfs override.tmpfs
    devices := mergeSeq m "devices" base.devices override.devices
    ulimits := mergeUlimits (key m "ulimits") base.ulimits override.ulimits
    networks :=
      mergeServiceNetworks (key m "networks") base.networks override.networks
    dependsOn :=
      mergeDependsOn (key m "depends_on") base.dependsOn override.dependsOn
    build := mergeBuild (key m "build") base.build override.build
    deploy := mergeDeploy (key m "deploy") base.deploy override.deploy
    healthcheck := mergeHealthcheck (key m "healthcheck") base.healthcheck override.healthcheck
    egress := overridePtr m "x-cornus-egress" base.egress override.egress
    ingress := overridePtr m "x-cornus-ingress" base.ingress override.ingress
    telemetry :=
      overridePtr m "x-cornus-telemetry" base.telemetry override.telemetry
    credentials := overridePtr m "x-cornus-credentials" base.credentials override.credentials
    provider := overridePtr m "provider" base.provider override.provider }

/-- `mergeSecretDef`. -/
def mergeSecretDef (base override : SecretDef) : SecretDef :=
  if replaced m then
    override
  else
    { file := overrideScalar m "file" base.file override.file
      environment :=
        overrideScalar m "environment" base.environment override.environment
      external := overrideScalar m "external" base.external override.external
      name := overrideScalar m "name" base.name override.name }

/-- `mergeConfigDef`. -/
def mergeConfigDef (base override : ConfigDef) : ConfigDef :=
  if replaced m then
    override
  else
    { file := overrideScalar m "file" base.file override.file
      content := overrideScalar m "content" base.content override.content
      environment :=
        overrideScalar m "environment" base.environment override.environment
      external := overrideScalar m "external" base.external override.external
      name := overrideScalar m "name" base.name override.name }

/-- `mergeVolumeDef`. -/
def mergeVolumeDef (base override : VolumeDef) : VolumeDef :=
  if replaced m then
    override
  else
    { external := overrideScalar m "external" base.external override.external
      name := overrideScalar m "name" base.name override.name
      driver := overrideScalar m "driver" base.driver override.driver
      driverOpts :=
        mergeMapping m "driver_opts" base.driverOpts override.driverOpts
      labels := mergeMapping m "labels" base.labels override.labels }

/-- `mergeNetworkDef`. -/
def mergeNetworkDef (base override : NetworkDef) : NetworkDef :=
  if replaced m then
    override
  else
    { external := overrideScalar m "external" base.external override.external
      name := overrideScalar m "name" base.name override.name
      driver := overrideScalar m "driver" base.driver override.driver
      driverOpts :=
        mergeMapping m "driver_opts" base.driverOpts override.driverOpts
      labels := mergeMapping m "labels" base.labels override.labels
      attachable :=
        overrideScalar m "attachable" base.attachable override.attachable
      internal := overrideScalar m "internal" base.internal override.internal
      enableIPv6 :=
        overrideScalar m "enable_ipv6" base.enableIPv6 override.enableIPv6
      ipam := overridePtr m "ipam" base.ipam override.ipam }

end Cornus.Compose
