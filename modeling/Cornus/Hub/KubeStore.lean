import Cornus.Hub.RedisStore
import Cornus.Lib.Mirror

/-!
# The hub registry of one replica over Kubernetes

A replica shows the providers of all replicas.  It fills its index of HubEndpoint
objects and its table of Leases from one direct listing of each, in `resync`,
and keeps them from the events of two informers that start afterwards.

The cluster and the delivery of events are those of `Cornus.Lib.Mirror`: an
informer reports every object of its own first list and every later change, in
order.  Only labelled objects are listed and watched, so the objects that hold
peer keys do not occur.
-/

namespace Cornus.Hub

open Mirror (Event Feed)

/-- A provider of a service, as its object says. -/
structure Provider where
  (objName connID service : String)
  mode : Mode
  (addr owner forwardAddr protocol : String)
  deriving DecidableEq

/-- `leaseInfo`; a renewal time that was never set is `none`. -/
structure LeaseInfo where
  renew : Option Nat
  duration : Nat
  deriving DecidableEq

/-- The lease was renewed within its duration. -/
def LeaseInfo.live (info : LeaseInfo) (now : Nat) : Bool :=
  info.renew.any fun renew => now ≤ renew + info.duration

/-- The lease of a replica. -/
structure Lease where
  holder : String
  info : LeaseInfo
  deriving DecidableEq

section Names

variable (sha256 : String → String)

/-- The name of the object of a provider; `sha256` gives the digest in hex. -/
def endpointName (replicaID connID service : String) : String :=
  "he-" ++ String.ofList
    ((sha256 (replicaID ++ "\x00" ++ connID ++ "\x00" ++ service)).toList.take 32)

/-- The object's name: 16 characters of the digest. -/
def leaseName (replicaID : String) : String :=
  "cornus-hub-" ++ String.ofList ((sha256 replicaID).toList.take 16)

end Names

/-- The providers by service and object name. -/
abbrev Index := Dict (Dict Provider)

/-- The leases by replica. -/
abbrev LeaseTable := Dict LeaseInfo

variable (index : Index) (record : Provider)

/-- Sets `index[record.service][record.objName]`, as `onEndpoint` does. -/
def onEndpoint : Index :=
  index.insert record.service (((index.lookup record.service).getD ∅).insert record.objName record)

/-- `onEndpointDelete`; a service without providers is dropped. -/
def onEndpointDelete : Index :=
  match index.lookup record.service with
  | none => index
  | some providers =>
    let rest := providers.erase record.objName
    if rest.entries = [] then index.erase record.service
    else index.insert record.service rest

variable (leases : LeaseTable) (lease : Lease)

def onLease : LeaseTable :=
  leases.insert lease.holder lease.info

def onLeaseDelete : LeaseTable :=
  leases.erase lease.holder

/-- One event of the watch on providers. -/
def handleEndpoint : Event Provider → Index
  | .set record => onEndpoint index record
  | .gone record => onEndpointDelete index record

/-- One event of the watch on leases. -/
def handleLease : Event Lease → LeaseTable
  | .set lease => onLease leases lease
  | .gone lease => onLeaseDelete leases lease

/-- How far the start of the replica has come. -/
inductive Phase where
  | begun
  /-- `resync` has listed the endpoints. -/
  | listed (index : Index)
  | synced

/-- The cluster as far as the replica watches it, and the replica. -/
structure KubeStore where
  endpoints : Feed Provider := {}
  leaseFeed : Feed Lease := {}
  phase : Phase := .begun
  index : Index := ∅
  leases : LeaseTable := ∅
  own : Index := ∅
  muxes : Dict Nat := ∅
  rr : Dict Nat := ∅

/-- A step of a replica, of the cluster or of a watch. -/
inductive KubeStep where
  /-- A replica creates or updates the object of a provider. -/
  | putEndpoint (owner connID service : String) (mode : Mode) (addr forwardAddr protocol : String)
  | deleteEndpoint (objName : String)
  | putLease (replica : String) (info : LeaseInfo)
  | deleteLease (replica : String)
  /-- `resync` lists the endpoints; a listing that fails is empty. -/
  | listEndpoints (ok : Bool)
  /-- `resync` lists the Leases and stores both listings. -/
  | listLeases (ok : Bool)
  | watchEndpoints
  | watchLeases
  | deliverEndpoint
  | deliverLease
  /-- The replica's own table, as `put` and `RemoveConn` change it. -/
  | register (connID service : String) (mode : Mode) (addr protocol : String) (mux : Option Nat)
  | withdraw (connID service : String)

/-- The index that a listing gives. -/
def indexOf (listing : Dict Provider) : Index :=
  (Mirror.records listing).foldl onEndpoint ∅

/-- The lease table that a listing gives. -/
def leasesOf (listing : Dict Lease) : LeaseTable :=
  (Mirror.records listing).foldl onLease ∅

section Steps

variable (sha256 : String → String) (me : Identity)

/-- The record that a registration keeps in the replica's own table. -/
def ownProvider (connID service : String) (mode : Mode) (addr protocol : String) : Provider where
  objName := endpointName sha256 me.replicaID connID service
  connID
  service
  mode
  addr
  owner := me.replicaID
  forwardAddr := me.forwardAddr
  protocol

variable (store : KubeStore)

/-- The store after a step. -/
def kubeStep : KubeStep → Option KubeStore
  | .putEndpoint owner connID service mode addr forwardAddr protocol =>
    let objName := endpointName sha256 owner connID service
    some { store with
      endpoints := store.endpoints.put objName
        ⟨objName, connID, service, mode, addr, owner, forwardAddr, protocol⟩ }
  | .deleteEndpoint objName =>
    some { store with endpoints := store.endpoints.remove objName }
  | .putLease replica info =>
    some { store with
      leaseFeed :=
        store.leaseFeed.put (leaseName sha256 replica) ⟨replica, info⟩ }
  | .deleteLease replica =>
    some { store with leaseFeed := store.leaseFeed.remove (leaseName sha256 replica) }
  | .listEndpoints ok =>
    match store.phase with
    | .begun =>
      let listing := if ok then store.endpoints.objects else ∅
      some { store with
        endpoints := store.endpoints.list listing
        phase := .listed (indexOf listing) }
    | _ => none
  | .listLeases ok =>
    match store.phase with
    | .listed index =>
      let listing := if ok then store.leaseFeed.objects else ∅
      some { store with
        leaseFeed := store.leaseFeed.list listing
        phase := .synced
        index
        leases := leasesOf listing }
    | _ => none
  | .watchEndpoints =>
    match store.phase, store.endpoints.watching with
    | .synced, false => some { store with endpoints := store.endpoints.watch }
    | _, _ => none
  | .watchLeases =>
    match store.phase, store.leaseFeed.watching with
    | .synced, false => some { store with leaseFeed := store.leaseFeed.watch }
    | _, _ => none
  | .deliverEndpoint =>
    match store.endpoints.events with
    | [] => none
    | event :: rest =>
      some { store with
        endpoints := { store.endpoints with events := rest }
        index := handleEndpoint store.index event }
  | .deliverLease =>
    match store.leaseFeed.events with
    | [] => none
    | event :: rest =>
      some { store with
        leaseFeed := { store.leaseFeed with events := rest }
        leases := handleLease store.leases event }
  | .register connID service mode addr protocol mux =>
    let record := ownProvider sha256 me connID service mode addr protocol
    some { store with
      own := onEndpoint store.own record
      muxes := match mux with
        | none => store.muxes
        | some mux => store.muxes.insert record.objName mux }
  | .withdraw connID service =>
    let record := ownProvider sha256 me connID service .direct "" ""
    some { store with
      own := onEndpointDelete store.own record
      muxes := store.muxes.erase record.objName }

variable (name : String) (now : Nat)

/-- The providers of a service that `liveProvidersLocked` has seen: the own
ones, and those of peers whose Lease is live. -/
def seenProviders : Dict Provider :=
  ((store.index.lookup name).getD ∅).entries.foldl (fun seen entry =>
      if entry.2.owner = me.replicaID then seen
      else if (store.leases.lookup entry.2.owner).any (·.live now) then
        seen.insert entry.1 entry.2
      else seen)
    ((store.own.lookup name).getD ∅)

/-- The live providers of a service, by object name. -/
def liveProviders : List Provider :=
  let seen := seenProviders me store name now
  (sortStrings seen.keys).filterMap fun objName => seen.lookup objName

/-- Round robin over the live providers. -/
def pick (live : List Provider) (cursor : Nat) : Option Provider :=
  live[cursor % live.length]?

/-- Where a request for a service goes. -/
inductive Target where
  | direct (addr protocol : String)
  | mux (mux : Nat)
  | forward (addr name : String)
  deriving DecidableEq

/-- `Lookup`, which moves the cursor on. -/
def lookupTarget : Option Target × KubeStore :=
  let live := liveProviders me store name now
  let cursor := (store.rr.lookup name).getD 0
  match pick live cursor with
  | none => (none, store)
  | some record =>
    let next :=
      { store with rr := store.rr.insert name (cursor % live.length + 1) }
    match record.mode with
    | .direct => (some (.direct record.addr record.protocol), next)
    | .deliver =>
      if record.owner = me.replicaID then
        ((store.muxes.lookup record.objName).map .mux, next)
      else (some (.forward record.forwardAddr name), next)

/-- The store after lookups of these services, in order. -/
def lookupAll (names : List String) : KubeStore :=
  names.foldl (fun store name => (lookupTarget me store name now).2) store

theorem lookupTarget_snd :
    let live := liveProviders me store name now
    (lookupTarget me store name now).2 = if live = [] then store else { store with
      rr := store.rr.insert name ((store.rr.lookup name).getD 0 % live.length + 1) } := by
  intro live
  by_cases empty : live = []
  · simp [lookupTarget, pick, live, empty]
  · have below := Nat.mod_lt ((store.rr.lookup name).getD 0) (List.length_pos_iff.mpr empty)
    have found : pick live ((store.rr.lookup name).getD 0) = _ := List.getElem?_eq_getElem below
    rw [lookupTarget, found, if_neg empty]
    dsimp only
    split
    · rfl
    · split <;> rfl

/-- Whatever is looked up in between, the lookups of a service take its live
providers in turn. -/
theorem pick_lookupAll (names : List String) :
    pick (liveProviders me (lookupAll me store now names) name now)
        (((lookupAll me store now names).rr.lookup name).getD 0) =
      pick (liveProviders me store name now)
        ((store.rr.lookup name).getD 0 + names.count name) := by
  induction names generalizing store with
  | nil => rfl
  | cons asked names ih =>
    refine (ih (lookupTarget me store asked now).2).trans ?_
    rw [lookupTarget_snd]
    split
    next empty =>
      by_cases here : asked = name
      · rw [here] at empty
        simp [pick, empty]
      · rw [List.count_cons_of_ne here]
    next filled =>
      change pick (liveProviders me store name now) _ = _
      by_cases here : asked = name
      · subst here
        simp only [AList.lookup_insert, Option.getD_some, List.count_cons_self, pick,
          add_assoc, Nat.mod_add_mod, add_comm 1]
      · rw [AList.lookup_insert_ne (Ne.symm here), List.count_cons_of_ne here]

/-- `Catalog`: the services of this replica and of its peers. -/
def catalog : List String :=
  let own := store.own.keys.filter fun name =>
    ((store.own.lookup name).getD ∅).keys ≠ []
  let peers := store.index.keys.filter fun name =>
    liveProviders me store name now ≠ []
  sortStrings (own ++ peers).dedup

end Steps

/-- An entry of the index. -/
def look (key : String × String) : Option Provider :=
  (index.lookup key.1).bind fun providers => providers.lookup key.2

variable (sha256 : String → String) (me : Identity) (store : KubeStore)

/-- The changes have stopped and every event is delivered. -/
structure Quiet : Prop where
  watchesEndpoints : store.endpoints.watching = true
  watchesLeases : store.leaseFeed.watching = true
  endpointsTold : store.endpoints.events = []
  leasesTold : store.leaseFeed.events = []

/-- A provider that the replica should offer: one of its own, or one in the
cluster whose owner holds a live Lease. -/
def Offered (name : String) (now : Nat) (record : Provider) : Prop :=
  look store.own (name, record.objName) = some record ∨
    store.endpoints.objects.lookup record.objName = some record ∧
      record.service = name ∧ record.owner ≠ me.replicaID ∧
      ∃ lease, store.leaseFeed.objects.lookup (leaseName sha256 record.owner) =
        some lease ∧ lease.holder = record.owner ∧ lease.info.live now = true

/-- The index and the leases show the cluster's objects. -/
structure Converged : Prop where
  index : ∀ service objName record, look store.index (service, objName) = some record ↔
      store.endpoints.objects.lookup objName = some record ∧ record.service = service
  leases : ∀ holder info, store.leases.lookup holder = some info ↔
    ∃ lease, store.leaseFeed.objects.lookup (leaseName sha256 holder) =
      some lease ∧ lease.holder = holder ∧ lease.info = info
  lookups : ∀ name now record,
    (∃ cursor, pick (liveProviders me store name now) cursor = some record) ↔
      Offered sha256 me store name now record
  names : ∀ name now, name ∈ catalog me store now ↔
    ∃ record, Offered sha256 me store name now record

/-- The provider whose object, or entry in the own table, a step writes. -/
def KubeStep.provider : KubeStep → Option (String × String × String)
  | .putEndpoint owner connID service _ _ _ _ => some (owner, connID, service)
  | .register connID service _ _ _ _ => some (me.replicaID, connID, service)
  | _ => none

/-- The replica whose Lease a step writes. -/
def KubeStep.holder : KubeStep → Option String
  | .putLease replica _ => some replica
  | _ => none

/-- The cut digests tell the providers and the replicas of a run apart. -/
structure NamesDistinct (steps : List KubeStep) : Prop where
  providers : ∀ provider ∈ steps.filterMap (KubeStep.provider me),
    ∀ other ∈ steps.filterMap (KubeStep.provider me),
      endpointName sha256 provider.1 provider.2.1 provider.2.2 =
        endpointName sha256 other.1 other.2.1 other.2.2 → provider = other
  holders : ∀ holder ∈ steps.filterMap KubeStep.holder,
    ∀ other ∈ steps.filterMap KubeStep.holder,
      leaseName sha256 holder = leaseName sha256 other → holder = other

/-- In every run the replica shows the cluster once the changes stop and every
event is delivered. -/
def ViewConverges : Prop :=
  ∀ steps store, NamesDistinct sha256 me steps →
    Lib.run (kubeStep sha256 me) {} steps = some store → Quiet store → Converged sha256 me store

end Cornus.Hub
