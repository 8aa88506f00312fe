import Cornus.Compose.Spec
import Mathlib.Data.List.Dedup

/-!
# Static addresses on user networks

`applyUserNetIPs`.  The source walks pointers into the plans; here the fields it
reads are collected per service, the addresses are computed from them, and the
result is written back.
-/

namespace Cornus.Compose

/-- `isMultusDriver`. -/
def isMultusDriver (driver : String) : Bool :=
  ["bridge", "ipvlan", "macvlan"].contains driver

variable (text : String)

/-- A number of an address, without leading zeros. -/
def parseOctet : Option Nat :=
  let digits := text.toList
  let value := digits.foldl (fun value c => 10 * value + (c.toNat - 48)) 0
  if digits ≠ [] ∧ digits.all Char.isDigit ∧
      (digits.head? ≠ some '0' ∨ digits.length = 1) ∧ digits.length ≤ 3 ∧ value ≤ 255 then
    some value
  else
    none

/-- `netip.ParseAddr` on an IPv4 address; every other text is refused, as the
caller refuses the addresses that are not IPv4. -/
def parseAddr : Option UInt32 :=
  match (splitOnChar '.' text).mapM parseOctet with
  | some [a, b, c, d] =>
    some (UInt32.ofNat (((a * 256 + b) * 256 + c) * 256 + d))
  | _ => none

/-- An address in dotted form. -/
def addrString (addr : UInt32) : String :=
  let value := addr.toNat
  toString (value / 2 ^ 24) ++ "." ++ toString (value / 2 ^ 16 % 256) ++ "." ++
    toString (value / 2 ^ 8 % 256) ++ "." ++ toString (value % 256)

/-- An address and the length of its network part. -/
structure Subnet where
  addr : UInt32
  bits : Nat

/-- The mask of a network part. -/
def mask (bits : Nat) : UInt32 :=
  UInt32.ofNat (2 ^ 32 - 2 ^ (32 - bits))

variable (subnet : Subnet)

/-- The subnet by its first address. -/
def Subnet.masked : Subnet :=
  { subnet with addr := subnet.addr &&& mask subnet.bits }

/-- The address lies in the subnet. -/
def Subnet.contains (addr : UInt32) : Bool :=
  addr &&& mask subnet.bits == subnet.addr &&& mask subnet.bits

/-- The subnet in CIDR form. -/
def Subnet.toText : String :=
  addrString subnet.addr ++ "/" ++ toString subnet.bits

/-- The length behind the slash. -/
def parseBits : Option Nat :=
  let digits := text.toList
  let value := digits.foldl (fun value c => 10 * value + (c.toNat - 48)) 0
  if digits ≠ [] ∧ digits.all Char.isDigit ∧
      (digits.head? ≠ some '0' ∨ digits.length = 1) ∧ value ≤ 32 then
    some value
  else
    none

/-- `netip.ParsePrefix` on an IPv4 prefix; every other text is refused. -/
def parseSubnet : Option Subnet :=
  match splitOnChar '/' text with
  | [addr, bits] => do
    let addr ← parseAddr addr
    let bits ← parseBits bits
    return { addr, bits }
  | _ => none

def trimDashes (text : List Char) : List Char :=
  ((text.dropWhile (· == '-')).reverse.dropWhile (· == '-')).reverse

variable (lib : Runtime) (name : String)

/-- The name as a label: lower case, digits and dashes. -/
def userNetSanitize : List Char :=
  trimDashes ((lib.toLower name).toList.map fun c =>
    if ('a' ≤ c && c ≤ 'z') || ('0' ≤ c && c ≤ '9') || c == '-' then c
    else '-')

def hexByte (byte : UInt8) : List Char :=
  [Nat.digitChar (byte.toNat / 16), Nat.digitChar (byte.toNat % 16)]

/-- The label of a network, cut and hashed. -/
def userNetLabel (logical : String) : String :=
  let sum := lib.sha256 logical.toUTF8.toList
  let base := userNetSanitize lib logical
  let base := if base = [] then "net".toList else base
  let base := if 54 < base.length then trimDashes (base.take 54) else base
  String.ofList (base ++ '-' :: (sum.toList.take 4).flatMap hexByte)

/-- The subnet of a network that gives none. -/
def multusDefaultSubnet (networkName : String) : String :=
  let sum := lib.sha256 (userNetLabel lib networkName).toUTF8.toList
  "10.222." ++ toString sum[0].toNat ++ ".0/24"

/-- `userNetMember`: one service's attachment to a shared network.  `index` is
the attachment's place among the service's networks, and the last two fields
are those the source reads through `spec`. -/
structure UserNetMember where
  service : String
  index : Nat
  att : Api.NetworkAttachment
  specName : String
  replicas : Int

/-- The addresses handed out so far, with their holders. -/
abbrev Taken := List (UInt32 × String)

/-- A host of the subnet, behind the first two addresses. -/
def hostAt (idx : UInt64) : UInt32 :=
  subnet.masked.addr + (2 + idx).toUInt32

/-- The number of host addresses `staticIPFor` draws from. -/
def usableHosts : UInt64 :=
  ((1 : UInt64) <<< UInt64.ofNat (32 - subnet.bits)) - 3

/-- The host that attempt `k` tries. -/
def probe (usable : UInt64) (k : Nat) : UInt64 :=
  let sum := lib.sha256 (name.toUTF8.toList ++ 0 :: (toString k).toUTF8.toList)
  (sum.toList.take 8).foldl (fun value byte => value * 256 + byte.toUInt64) 0 % usable

/-- The linear scan of `staticIPFor`, from offset `off` on for `count` steps. -/
def scanHosts (subnet : Subnet) (taken : Taken) (first usable : UInt64) :
    Nat → UInt64 → Option UInt32
  | 0, _ => none
  | count + 1, off =>
    let addr := hostAt subnet ((first + off) % usable)
    if (taken.lookup addr).isNone then some addr
    else scanHosts subnet taken first usable count (off + 1)

/-- The first free host: eight by hash, then in order. -/
def staticIPFor (subnet : Subnet) (taken : Taken) : Except String UInt32 :=
  let usable := usableHosts subnet
  let probes := (List.range 8).map fun k =>
    hostAt subnet (probe lib name usable k)
  match probes.find? (fun addr => (taken.lookup addr).isNone) with
  | some addr => .ok addr
  | none =>
    match scanHosts subnet taken (probe lib name usable 0) usable usable.toNat 0 with
    | some addr => .ok addr
    | none => .error ("subnet " ++ subnet.toText ++
        " has no free host address left for a static IP")

/-- The member with its address. -/
def UserNetMember.hold (member : UserNetMember) (subnet : Subnet) (addr : UInt32) : UserNetMember :=
  { member with att :=
      { member.att with ip := addrString addr ++ "/" ++ toString subnet.bits } }

/-- What the two allocation loops carry: the addresses taken, the table from
service to address, and the members passed so far. -/
structure Allocation where
  taken : Taken := []
  table : Dict String := ∅
  members : List UserNetMember := []

/-- The address goes to the member. -/
def Allocation.give (alloc : Allocation) (subnet : Subnet)
    (member : UserNetMember) (addr : UInt32) : Allocation :=
  { taken := (addr, member.service) :: alloc.taken
    table := alloc.table.put member.service (addrString addr)
    members := alloc.members ++ [member.hold subnet addr] }

/-- The addresses that services pin. -/
def allocatePins (lib : Runtime) (netName : String) (subnet : Subnet) :
    Allocation → List UserNetMember → Except String Allocation
  | alloc, [] => .ok alloc
  | alloc, member :: rest =>
    let place := "network " ++ netName ++ ": service " ++ member.service
    if member.att.ip = "" then
      allocatePins lib netName subnet { alloc with members := alloc.members ++ [member] } rest
    else
      match parseAddr member.att.ip with
      | none =>
        .error (place ++ ": ipv4_address " ++ lib.quote member.att.ip ++ " is not an IPv4 address")
      | some addr =>
        if ¬subnet.contains addr then
          .error (place ++ ": ipv4_address " ++ addrString addr ++
            " is outside the network subnet " ++ subnet.toText)
        else
          match alloc.taken.lookup addr with
          | some holder =>
            .error ("network " ++ netName ++ ": services " ++ holder ++
              " and " ++ member.service ++ " both pin ipv4_address " ++ addrString addr)
          | none =>
            allocatePins lib netName subnet (alloc.give subnet member addr) rest

/-- The loop over derived addresses in `allocateUserNet`. -/
def allocateDerived (lib : Runtime) (netName : String) (subnet : Subnet) :
    Allocation → List UserNetMember → Except String Allocation
  | alloc, [] => .ok alloc
  | alloc, member :: rest =>
    if member.att.ip ≠ "" then
      allocateDerived lib netName subnet { alloc with members := alloc.members ++ [member] } rest
    else
      match staticIPFor lib member.specName subnet alloc.taken with
      | .error cause =>
        .error ("network " ++ netName ++ ": service " ++ member.service ++ ": " ++ cause)
      | .ok addr =>
        allocateDerived lib netName subnet (alloc.give subnet member addr) rest

/-- `allocateUserNet`; `none` leaves the network dynamically addressed. -/
def allocateUserNet (netName : String)
    (members : List UserNetMember) : Except String (Option Allocation) :=
  let opts := ((members.head?).map fun member => member.att.driverOpts).getD ∅
  let pinned := members.find? fun member => member.att.ip ≠ ""
  let subnetText :=
    if (opts.lookup "subnet").getD "" = "" then multusDefaultSubnet lib netName
    else (opts.lookup "subnet").getD ""
  if opts.lookup "ipam" = some "host-local" then
    match pinned with
    | some member =>
      .error ("network " ++ netName ++ ": service " ++ member.service ++
        " pins ipv4_address " ++ member.att.ip ++
        ", but driver_opts ipam host-local requests dynamic addressing")
    | none => .ok none
  else
    match (parseSubnet subnetText).filter (fun subnet => subnet.bits ≤ 29) with
    | none =>
      match pinned with
      | some member =>
        .error ("network " ++ netName ++ ": cannot pin ipv4_address " ++
          member.att.ip ++ ": subnet " ++ lib.quote subnetText ++ " is not a usable IPv4 subnet")
      | none => .ok none
    | some subnet =>
      let subnet := subnet.masked
      match members.find? fun member => 1 < member.replicas, pinned with
      | some scaled, some member =>
        .error ("network " ++ netName ++ ": service " ++ member.service ++
          " pins ipv4_address, but service " ++ scaled.service ++
          " scales to " ++ toString scaled.replicas ++
          " replicas; a scaled network cannot be statically addressed")
      | some _, none => .ok none
      | none, _ => do
        let pins ← allocatePins lib netName subnet {} members
        let alloc ← allocateDerived lib netName subnet { pins with members := [] } pins.members
        return some alloc

/-- What the allocation reads of a plan. -/
structure NetFacts where
  specName : String
  replicas : Int
  networks : List Api.NetworkAttachment

/-- The attachments of one plan with their addresses, and the records of its
peers. -/
structure NetResult where
  networks : List Api.NetworkAttachment
  records : Dict String

variable (att : Api.NetworkAttachment)

/-- The network gives addresses of its own. -/
def overlaid : Bool :=
  isMultusDriver att.driver && !att.default

/-- A pin counts only on such a network. -/
def dropPin : Api.NetworkAttachment :=
  if overlaid att then att else { att with ip := "" }

/-- A service's memberships. -/
def serviceMembers (service : String) (facts : NetFacts) : List UserNetMember :=
  facts.networks.zipIdx.filterMap fun (att, index) =>
    if overlaid att then
      some { service, index, att, specName := facts.specName, replicas := facts.replicas }
    else
      none

variable (facts : Dict NetFacts)

/-- All memberships, by the names of the services. -/
def netMembers : List UserNetMember :=
  (sortStrings facts.keys).flatMap fun service =>
    match facts.lookup service with
    | none => []
    | some own => serviceMembers service own

variable (members : List UserNetMember)

/-- The allocation of every network that has members, by network name. -/
def allocateAll : Except String (List (String × Option Allocation)) :=
  (sortStrings (members.map fun member => member.att.name).dedup).mapM fun netName => do
      let alloc ← allocateUserNet lib netName
        (members.filter fun member => member.att.name = netName)
      return (netName, alloc)

/-- The names of a peer, at its address. -/
def memberRecords (table : Dict String) (records : Dict String)
    (peer : UserNetMember) : Dict String :=
  peer.att.aliases.foldl (fun records name =>
    if (records.lookup name).isSome then records
    else records.put name ((table.lookup peer.service).getD "")) records

variable (allocations : List (String × Option Allocation))

/-- The records of a service, network by network. -/
def peerRecords (networks : List Api.NetworkAttachment) : Dict String :=
  networks.foldl (fun records att =>
    match (allocations.lookup att.name).join with
    | none => records
    | some alloc =>
      (members.filter fun member => member.att.name = att.name).foldl
        (memberRecords alloc.table) records) ∅

/-- The attachment with the allocated address. -/
def assignedIP (service : String) (index : Nat) (att : Api.NetworkAttachment) :
    Api.NetworkAttachment :=
  match (allocations.lookup att.name).join with
  | none => att
  | some alloc =>
    match alloc.members.find? fun member =>
        member.service = service ∧ member.index = index with
    | none => att
    | some member => { att with ip := member.att.ip }

/-- `userNetIPs`: addresses and records of all services. -/
def userNetIPs : Except String (Dict NetResult) := do
  let facts := facts.mapVals fun _ own =>
    { own with networks := own.networks.map dropPin }
  let members := netMembers facts
  let allocations ← allocateAll lib members
  return facts.mapVals fun service own =>
    { networks := own.networks.zipIdx.map fun (att, index) =>
        assignedIP allocations service index att
      records := peerRecords members allocations own.networks }

variable (plan : ServicePlan)

/-- What a plan gives the allocation. -/
def ServicePlan.netFacts : NetFacts :=
  { specName := plan.spec.name, replicas := plan.spec.replicas, networks := plan.spec.networks }

/-- A plan with the result for its service.  A proxied service gets no DNS
caretaker. -/
def ServicePlan.setNet : Option NetResult → ServicePlan
  | none => plan
  | some result =>
    { plan with spec :=
        { plan.spec with
          networks := result.networks
          dns :=
            if plan.spec.proxy.isSome ∨ result.records.entries = [] then
              plan.spec.dns
            else
              some { records := result.records, requireUserNet := true } } }

/-- `applyUserNetIPs`. -/
def applyUserNetIPs (plans : Dict ServicePlan) : Except String (Dict ServicePlan) := do
  let results ← userNetIPs lib (plans.mapVals fun _ plan => plan.netFacts)
  return plans.mapVals fun name plan => plan.setNet (results.lookup name)

end Cornus.Compose
