import Cornus.Hub.KubeStore
import Mathlib.Data.List.Dedup

/-!
# What the Kubernetes registry shows

The index and the Lease table are two tables kept from a listing and a watch.
They show the cluster exactly when nothing that `resync` listed was deleted
before the informer took its own list, or at least all of it was created again.
-/

namespace Cornus.Hub

open Bool Prod Phase

open Lib Mirror AList Option

section Tables

/-- The providers and the replicas of a run, whose objects have different
names. -/
structure RunNames (sha256 : String → String) where
  providers : List (String × String × String)
  holders : List String
  provider_unique : ∀ provider ∈ providers, ∀ other ∈ providers,
    endpointName sha256 provider.1 provider.2.1 provider.2.2 =
      endpointName sha256 other.1 other.2.1 other.2.2 → provider = other
  holder_unique : ∀ holder ∈ holders, ∀ other ∈ holders,
    leaseName sha256 holder = leaseName sha256 other → holder = other

variable {sha256 : String → String}

/-- The objects of providers, as a mirrored table. -/
def endpointSchema (names : RunNames sha256) : Schema Provider (String × String) Provider where
  key record := (record.service, record.objName)
  value := id
  name key := key.2
  Good record := record.objName = endpointName sha256 record.owner record.connID record.service ∧
    (record.owner, record.connID, record.service) ∈ names.providers
  unique := by
    intro record other good otherGood same
    have identical := names.provider_unique _ good.2 _ otherGood.2
      (good.1.symm.trans (Eq.trans same otherGood.1))
    exact Prod.ext (mk.inj (mk.inj identical).2).2 same

/-- The leases, as a mirrored table. -/
def leaseSchema (names : RunNames sha256) : Schema Lease String LeaseInfo where
  key := Lease.holder
  value := Lease.info
  name := leaseName sha256
  Good lease := lease.holder ∈ names.holders
  unique good otherGood same := names.holder_unique _ good _ otherGood same

theorem look_onEndpoint (index : Index) (record : Provider) : look (onEndpoint index record) =
      Function.update (look index) (record.service, record.objName) (some record) := by
  funext key
  obtain ⟨service, objName⟩ := key
  by_cases same : service = record.service
  · subst same
    by_cases here : objName = record.objName
    · subst here
      rw [Function.update_self]
      simp [look, onEndpoint]
    · rw [Function.update_of_ne fun equal => here (mk.inj equal).2]
      simp only [look, onEndpoint, lookup_insert, bind_some, lookup_insert_ne here]
      cases index.lookup record.service <;> rfl
  · rw [Function.update_of_ne fun equal => same (mk.inj equal).1]
    simp only [look, onEndpoint, lookup_insert_ne same]

theorem look_onEndpointDelete (index : Index) (record : Provider) :
    look (onEndpointDelete index record) =
      Function.update (look index) (record.service, record.objName) none := by
  funext key
  obtain ⟨service, objName⟩ := key
  unfold onEndpointDelete
  split
  · rename_i absent
    by_cases same : (service, objName) = (record.service, record.objName)
    · rw [same, Function.update_self]
      simp [look, absent]
    · rw [Function.update_of_ne same]
  · rename_i providers there
    by_cases same : service = record.service
    · subst same
      by_cases here : objName = record.objName
      · subst here
        rw [Function.update_self]
        simp only
        split
        · simp [look]
        · simp [look]
      · rw [Function.update_of_ne fun equal => here (mk.inj equal).2]
        simp only
        split
        · rename_i empty
          have none : providers.lookup objName = none := by
            rw [← lookup_erase_ne here, lookup, empty]
            rfl
          simp [look, there, none]
        · simp [look, there, lookup_erase_ne here]
    · rw [Function.update_of_ne fun equal => same (mk.inj equal).1]
      simp only
      split
      · simp [look, lookup_erase_ne same]
      · simp [look, lookup_insert_ne same]

variable (names : RunNames sha256)

theorem look_handleEndpoint (index : Index) (event : Event Provider) :
    look (handleEndpoint index event) = notice (endpointSchema names) (look index) event := by
  cases event with
  | set record => exact look_onEndpoint index record
  | gone record => exact look_onEndpointDelete index record

theorem lookup_handleLease (leases : LeaseTable) (event : Event Lease) :
    (fun holder => (handleLease leases event).lookup holder) =
      notice (leaseSchema names) (fun holder => leases.lookup holder) event := by
  funext holder
  cases event with
  | set lease =>
    by_cases same : holder = lease.holder
    · subst same
      simp [handleLease, onLease, notice, leaseSchema]
    · have other : holder ≠ (leaseSchema names).key lease := same
      rw [notice, Function.update_of_ne other]
      exact lookup_insert_ne same
  | gone lease =>
    by_cases same : holder = lease.holder
    · subst same
      simp [handleLease, onLeaseDelete, notice, leaseSchema]
    · have other : holder ≠ (leaseSchema names).key lease := same
      rw [notice, Function.update_of_ne other]
      exact lookup_erase_ne same

theorem look_foldl (records : List Provider) (index : Index) :
    look (records.foldl onEndpoint index) =
      settle (endpointSchema names) (look index) (records.map .set) := by
  induction records generalizing index with
  | nil => rfl
  | cons record rest ih =>
    rw [List.foldl_cons, ih, look_onEndpoint]
    rfl

theorem lookup_foldl (records : List Lease) (leases : LeaseTable) :
    (fun holder => (records.foldl onLease leases).lookup holder) =
      settle (leaseSchema names) (fun holder => leases.lookup holder) (records.map .set) := by
  induction records generalizing leases with
  | nil => rfl
  | cons record rest ih =>
    rw [List.foldl_cons, ih]
    exact congrArg (settle (leaseSchema names) · (rest.map .set))
      (lookup_handleLease names leases (.set record))

variable {names}

theorem look_indexOf {listing : Dict Provider}
    (filed : Filed (endpointSchema names) listing) (key : String × String) :
    look (indexOf listing) key = shown (endpointSchema names) listing key := by
  rw [indexOf, look_foldl names]
  exact settle_listing filed key

theorem lookup_leasesOf {listing : Dict Lease}
    (filed : Filed (leaseSchema names) listing) (holder : String) :
    (leasesOf listing).lookup holder = shown (leaseSchema names) listing holder := by
  have table := congrFun (lookup_foldl names (records listing) ∅) holder
  exact table.trans (settle_listing filed holder)

end Tables

section Runs

variable {sha256 : String → String} (names : RunNames sha256) (me : Identity) (store : KubeStore)

/-- The index that lookups will read once it is shown. -/
def KubeStore.shownIndex : Index :=
  match store.phase with
  | .listed index => index
  | _ => store.index

/-- The providers have been listed. -/
def Phase.listedEndpoints : Phase → Bool
  | .begun => false
  | _ => true

/-- The leases have been listed. -/
def Phase.listedLeases : Phase → Bool
  | .synced => true
  | _ => false

theorem eq_synced {phase : Phase} (late : phase.listedLeases = true) : phase = .synced := by
  cases phase with
  | synced => rfl
  | begun => cases late
  | listed index => cases late

/-- What holds of a replica and its cluster in every state. -/
structure Watches : Prop where
  endpoints : Follows (endpointSchema names) store.endpoints
    (look store.shownIndex) store.phase.listedEndpoints
  leases : Follows (leaseSchema names) store.leaseFeed
    (fun holder => store.leases.lookup holder) store.phase.listedLeases
  started : store.endpoints.watching = true ∨ store.leaseFeed.watching = true →
    store.phase.listedLeases = true
  own : ∀ key record, look store.own key = some record →
    key = (record.service, record.objName) ∧ record.owner = me.replicaID ∧
      (endpointSchema names).Good record

variable {names me}

theorem Watches.unwatched {store : KubeStore} (watches : Watches names me store)
    (early : store.phase.listedLeases = false) :
    store.endpoints.watching = false ∧ store.leaseFeed.watching = false := by
  constructor
  · cases watching : store.endpoints.watching with
    | false => rfl
    | true =>
      rw [watches.started (.inl watching)] at early
      cases early
  · cases watching : store.leaseFeed.watching with
    | false => rfl
    | true =>
      rw [watches.started (.inr watching)] at early
      cases early

theorem filed_listing {Record Key Value : Type}
    {schema : Schema Record Key Value} {objects : Dict Record}
    (filed : Filed schema objects) (ok : Bool) : Filed schema (if ok then objects else ∅) := by
  cases ok with
  | true => exact filed
  | false => exact Filed.empty

/-- A step writes nothing outside the names of the run. -/
def KubeStep.Among (names : RunNames sha256) (me : Identity) (step : KubeStep) : Prop :=
  (∀ provider, step.provider me = some provider → provider ∈ names.providers) ∧
    ∀ holder, step.holder = some holder → holder ∈ names.holders

/-- Each step keeps the watches on the cluster's objects. -/
theorem Watches.step {store next : KubeStore} {taken : KubeStep}
    (watches : Watches names me store) (among : taken.Among names me)
    (stepped : kubeStep sha256 me store taken = some next) : Watches names me next := by
  cases taken with
  | putEndpoint owner connID service mode addr forwardAddr protocol =>
    cases stepped
    refine ⟨watches.endpoints.put ⟨rfl, among.1 _ rfl⟩ rfl, watches.leases, ?_, watches.own⟩
    rw [Feed.put_watching]
    exact watches.started
  | deleteEndpoint objName =>
    cases stepped
    refine ⟨watches.endpoints.remove objName, watches.leases, ?_, watches.own⟩
    rw [Feed.remove_watching]
    exact watches.started
  | putLease replica info =>
    cases stepped
    refine ⟨watches.endpoints, watches.leases.put (among.2 _ rfl) rfl, ?_, watches.own⟩
    rw [Feed.put_watching]
    exact watches.started
  | deleteLease replica =>
    cases stepped
    refine ⟨watches.endpoints, watches.leases.remove _, ?_, watches.own⟩
    rw [Feed.remove_watching]
    exact watches.started
  | listEndpoints ok =>
    simp only [kubeStep] at stepped
    split at stepped <;> cases stepped
    rename_i begun
    have early : store.phase.listedLeases = false := by rw [begun]; rfl
    obtain ⟨endpoints, leases⟩ := watches.unwatched early
    have filed := filed_listing watches.endpoints.objects ok
    refine ⟨watches.endpoints.list endpoints filed (look_indexOf filed), ?_, ?_, watches.own⟩
    · have follows := watches.leases
      rw [early] at follows
      exact follows
    · intro either
      rcases either with on | on
      · exact absurd (endpoints.symm.trans on) false_ne_true
      · exact absurd (leases.symm.trans on) false_ne_true
  | listLeases ok =>
    simp only [kubeStep] at stepped
    split at stepped <;> cases stepped
    rename_i index listed
    have early : store.phase.listedLeases = false := by rw [listed]; rfl
    obtain ⟨endpoints, leases⟩ := watches.unwatched early
    have filed := filed_listing watches.leases.objects ok
    refine ⟨?_, watches.leases.list leases filed (lookup_leasesOf filed), fun _ => rfl, watches.own⟩
    have follows := watches.endpoints
    rw [KubeStore.shownIndex, listed] at follows
    exact follows
  | watchEndpoints =>
    simp only [kubeStep] at stepped
    split at stepped <;> cases stepped
    rename_i synced unwatched
    refine ⟨?_, watches.leases, ?_, watches.own⟩
    · have follows := watches.endpoints
      rw [synced] at follows
      have watched := follows.watch unwatched
      rw [KubeStore.shownIndex, synced] at watched
      simp only [KubeStore.shownIndex, synced]
      exact watched
    · intro _
      simp only [synced]
      rfl
  | watchLeases =>
    simp only [kubeStep] at stepped
    split at stepped <;> cases stepped
    rename_i synced unwatched
    refine ⟨watches.endpoints, ?_, ?_, watches.own⟩
    · have follows := watches.leases
      rw [synced] at follows
      simp only [synced]
      exact follows.watch unwatched
    · intro _
      simp only [synced]
      rfl
  | deliverEndpoint =>
    simp only [kubeStep] at stepped
    split at stepped <;> cases stepped
    rename_i event rest next
    have synced : store.phase = .synced := by
      cases watching : store.endpoints.watching with
      | false =>
        rw [watches.endpoints.idle watching] at next
        cases next
      | true => exact eq_synced (watches.started (.inl watching))
    refine { watches with endpoints := ?_ }
    have delivered := watches.endpoints.deliver next
    rw [KubeStore.shownIndex, synced] at delivered
    rw [← look_handleEndpoint] at delivered
    simp only [KubeStore.shownIndex, synced]
    exact delivered
  | deliverLease =>
    simp only [kubeStep] at stepped
    split at stepped <;> cases stepped
    rename_i event rest next
    refine { watches with leases := ?_ }
    have delivered := watches.leases.deliver next
    rw [← lookup_handleLease] at delivered
    exact delivered
  | register connID service mode addr protocol mux =>
    cases stepped
    refine { watches with own := ?_ }
    intro key record found
    rw [look_onEndpoint] at found
    obtain ⟨rfl, ⟨⟩⟩ | ⟨_, found⟩ := update_eq_iff.mp found
    · exact ⟨rfl, rfl, rfl, among.1 _ rfl⟩
    · exact watches.own key record found
  | withdraw connID service =>
    cases stepped
    refine { watches with own := ?_ }
    intro key record found
    rw [look_onEndpointDelete] at found
    obtain ⟨_, ⟨⟩⟩ | ⟨_, found⟩ := update_eq_iff.mp found
    exact watches.own key record found

end Runs

section Offers

variable {sha256 : String → String} {names : RunNames sha256} {me : Identity} {store : KubeStore}

/-- The owner's lease is live. -/
def alive (store : KubeStore) (owner : String) (now : Nat) : Bool :=
  (store.leases.lookup owner).any (·.live now)

/-- The record is another replica's, which is alive. -/
def ofLivePeer (me : Identity) (store : KubeStore) (now : Nat) (record : Provider) : Bool :=
  record.owner ≠ me.replicaID && alive store record.owner now

theorem lookup_getD (index : Index) (name objName : String) :
    ((index.lookup name).getD ∅).lookup objName = look index (name, objName) := by
  rw [look]
  cases index.lookup name <;> rfl

theorem mem_keys_of_look {index : Index} (found : look index (name, objName) = some record) :
    name ∈ index.keys := by
  obtain ⟨providers, there, _⟩ := bind_eq_some_iff.mp found
  exact lookup_isSome.mp (isSome_of_eq_some there)

theorem lookup_seenProviders (name : String) (now : Nat) (objName : String) :
    (seenProviders me store name now).lookup objName =
      ((look store.index (name, objName)).filter (ofLivePeer me store now)).or
        (look store.own (name, objName)) := by
  have same : (fun (seen : Dict Provider) (entry : Σ _ : String, Provider) =>
      if entry.2.owner = me.replicaID then seen
      else if (store.leases.lookup entry.2.owner).any (·.live now) then
        seen.insert entry.1 entry.2
      else seen) = fun seen entry =>
        if ofLivePeer me store now entry.2 then
          seen.insert entry.1 entry.2 else seen := by
    funext seen entry
    by_cases own : entry.2.owner = me.replicaID
    · simp [own, ofLivePeer]
    · simp [own, ofLivePeer, alive]
  rw [seenProviders, same, ← lookup_getD store.own, ← lookup_getD store.index]
  exact Dict.lookup_foldl_insert (ofLivePeer me store now) (nodupKeys _) _ objName

variable {now : Nat} {name : String}

theorem mem_liveProviders : record ∈ liveProviders me store name now ↔
      ∃ objName, (seenProviders me store name now).lookup objName = some record := by
  rw [liveProviders]
  simp only [List.mem_filterMap, mem_sortStrings]
  constructor
  · intro found
    obtain ⟨objName, _, there⟩ := found
    exact ⟨objName, there⟩
  · intro found
    obtain ⟨objName, there⟩ := found
    exact ⟨objName, lookup_isSome.mp (isSome_of_eq_some there), there⟩

theorem mem_catalog : name ∈ catalog me store now ↔
      ∃ record, record ∈ liveProviders me store name now := by
  rw [catalog, mem_sortStrings, List.mem_dedup, List.mem_append,
    List.mem_filter, List.mem_filter, decide_eq_true_iff, decide_eq_true_iff]
  constructor
  · intro listed
    rcases listed with ⟨_, some⟩ | ⟨_, live⟩
    · obtain ⟨objName, mem⟩ := List.exists_mem_of_ne_nil _ some
      have own := lookup_isSome.mpr mem
      rw [lookup_getD] at own
      have seen : ((seenProviders me store name now).lookup objName).isSome = true := by
        rw [lookup_seenProviders, isSome_or, own, Bool.or_true]
      obtain ⟨record, there⟩ := isSome_iff_exists.mp seen
      exact ⟨record, mem_liveProviders.mpr ⟨objName, there⟩⟩
    · exact List.exists_mem_of_ne_nil _ live
  · intro offered
    obtain ⟨record, mem⟩ := offered
    obtain ⟨objName, seen⟩ := mem_liveProviders.mp mem
    rw [lookup_seenProviders, or_eq_some_iff] at seen
    rcases seen with peer | ⟨_, own⟩
    · right
      exact ⟨mem_keys_of_look (filter_eq_some_iff.mp peer).1, List.ne_nil_of_mem mem⟩
    · left
      refine ⟨mem_keys_of_look own, ?_⟩
      rw [← lookup_getD] at own
      exact List.ne_nil_of_mem (lookup_isSome.mp (isSome_of_eq_some own))

/-- Whatever the replica has been told, the catalog has the names that a lookup
finds a provider for. -/
theorem mem_catalog_iff_pick (cursor : Nat) : name ∈ catalog me store now ↔
      (pick (liveProviders me store name now) cursor).isSome = true := by
  rw [mem_catalog, isSome_iff_exists]
  constructor
  · intro offered
    obtain ⟨record, mem⟩ := offered
    exact ⟨_, List.getElem?_eq_getElem (Nat.mod_lt cursor (List.length_pos_of_mem mem))⟩
  · intro picked
    obtain ⟨record, found⟩ := picked
    exact ⟨record, List.mem_of_getElem? found⟩

theorem exists_pick : (∃ cursor, pick live cursor = some record) ↔ record ∈ live := by
  constructor
  · intro picked
    obtain ⟨cursor, found⟩ := picked
    exact List.mem_of_getElem? found
  · intro mem
    obtain ⟨index, found⟩ := List.mem_iff_getElem?.mp mem
    refine ⟨index, ?_⟩
    rw [pick, Nat.mod_eq_of_lt (List.getElem?_eq_some_iff.mp found).1]
    exact found

theorem forall_eq_some_iff {Key Value : Type} {view cluster : Key → Option Value}
    {Holds : Key → Value → Prop} (shows : ∀ key value, cluster key = some value ↔ Holds key value) :
    (∀ key value, view key = some value ↔ Holds key value) ↔ ∀ key, view key = cluster key := by
  simp only [← shows]
  constructor
  · intro exact key
    exact Option.ext (exact key)
  · intro exact key value
    rw [exact]

theorem index_exact_iff (filed : Filed (endpointSchema names) store.endpoints.objects) :
    (∀ service objName record, look store.index (service, objName) = some record ↔
        store.endpoints.objects.lookup objName = some record ∧ record.service = service) ↔
    ∀ key, look store.index key = shown (endpointSchema names) store.endpoints.objects key := by
  have shows : ∀ key record,
      shown (endpointSchema names) store.endpoints.objects key = some record ↔
        store.endpoints.objects.lookup key.2 = some record ∧ record.service = key.1 := by
    intro key record
    rw [shown_eq_some]
    constructor
    · intro shown
      obtain ⟨held, there, rfl, rfl⟩ := shown
      exact ⟨there, rfl⟩
    · intro held
      obtain ⟨there, service⟩ := held
      exact ⟨record, there, Prod.ext service (filed _ _ there).2, rfl⟩
  exact Prod.forall.symm.trans (forall_eq_some_iff shows)

theorem leases_exact_iff : (∀ holder info, store.leases.lookup holder = some info ↔
      ∃ lease, store.leaseFeed.objects.lookup (leaseName sha256 holder) =
        some lease ∧ lease.holder = holder ∧ lease.info = info) ↔
    ∀ holder, store.leases.lookup holder =
      shown (leaseSchema names) store.leaseFeed.objects holder :=
  forall_eq_some_iff fun _ _ => shown_eq_some

section Exact

variable (watches : Watches names me store) (index : ∀ service objName record,
    look store.index (service, objName) = some record ↔
      store.endpoints.objects.lookup objName = some record ∧ record.service = service)
  (leases : ∀ holder info, store.leases.lookup holder = some info ↔
    ∃ lease, store.leaseFeed.objects.lookup (leaseName sha256 holder) =
      some lease ∧ lease.holder = holder ∧ lease.info = info)

include leases in
theorem alive_iff : alive store owner now = true ↔
      ∃ lease, store.leaseFeed.objects.lookup (leaseName sha256 owner) =
        some lease ∧ lease.holder = owner ∧ lease.info.live now = true := by
  rw [alive, any_eq_true]
  constructor
  · intro known
    obtain ⟨info, there, live⟩ := known
    obtain ⟨lease, stored, holder, rfl⟩ := (leases owner info).mp there
    exact ⟨lease, stored, holder, live⟩
  · intro holds
    obtain ⟨lease, stored, holder, live⟩ := holds
    exact ⟨lease.info, (leases owner lease.info).mpr ⟨lease, stored, holder, rfl⟩, live⟩

include watches index leases in
theorem mem_liveProviders_iff :
    record ∈ liveProviders me store name now ↔ Offered sha256 me store name now record := by
  rw [mem_liveProviders]
  constructor
  · intro seen
    obtain ⟨objName, seen⟩ := seen
    rw [lookup_seenProviders, or_eq_some_iff] at seen
    rcases seen with peer | ⟨_, own⟩
    · right
      obtain ⟨there, peer⟩ := filter_eq_some_iff.mp peer
      obtain ⟨stored, service⟩ := (index _ _ _).mp there
      have named : record.objName = objName := (watches.endpoints.objects _ _ stored).2
      rw [ofLivePeer, and_eq_true, decide_eq_true_iff] at peer
      exact ⟨named.symm ▸ stored, service, peer.1, (alive_iff leases).mp peer.2⟩
    · left
      obtain ⟨key, _⟩ := watches.own _ _ own
      rw [(mk.inj key).2] at own
      exact own
  · intro offered
    refine ⟨record.objName, ?_⟩
    rw [lookup_seenProviders, or_eq_some_iff]
    rcases offered with own | ⟨stored, service, foreign, lease⟩
    · right
      refine ⟨?_, own⟩
      -- An object of the same name would be of this replica.
      rw [eq_none_iff_forall_ne_some]
      intro other shown
      obtain ⟨there, peer⟩ := filter_eq_some_iff.mp shown
      obtain ⟨stored, _⟩ := (index _ _ _).mp there
      obtain ⟨good, named⟩ := watches.endpoints.objects _ _ stored
      obtain ⟨_, mine, ownGood⟩ := watches.own _ _ own
      have identical := names.provider_unique _ good.2 _ ownGood.2
        (good.1.symm.trans (named.trans ownGood.1))
      rw [ofLivePeer, and_eq_true, decide_eq_true_iff] at peer
      exact peer.1 ((mk.inj identical).1.trans mine)
    · left
      apply filter_eq_some_iff.mpr
      refine ⟨(index _ _ _).mpr ⟨stored, service⟩, ?_⟩
      rw [ofLivePeer, and_eq_true, decide_eq_true_iff]
      exact ⟨foreign, (alive_iff leases).mpr lease⟩

include watches index leases in
theorem mem_catalog_iff : name ∈ catalog me store now ↔
      ∃ record, Offered sha256 me store name now record := by
  rw [mem_catalog]
  exact exists_congr fun _ => mem_liveProviders_iff watches index leases

end Exact

end Offers

variable {sha256 : String → String} (me : Identity)

theorem watches_start (names : RunNames sha256) : Watches names me {} where
  endpoints := ⟨Filed.empty, Filed.empty, fun _ => rfl, nofun, nofun⟩
  leases := ⟨Filed.empty, Filed.empty, fun _ => rfl, nofun, nofun⟩
  started either := by
    rcases either with on | on <;> cases on
  own := nofun

variable {me}

/-- The names of a run. -/
def NamesDistinct.names (distinct : NamesDistinct sha256 me steps) : RunNames sha256 :=
  ⟨_, _, distinct.providers, distinct.holders⟩

theorem watches_run (distinct : NamesDistinct sha256 me steps)
    (reached : run (kubeStep sha256 me) {} steps = some store) :
    Watches distinct.names me store := by
  have along :
      Along (kubeStep sha256 me) (fun _ step => step.Among distinct.names me) {} steps := by
    apply Along.of_events
    intro step mem
    exact ⟨fun provider written => List.mem_filterMap.mpr ⟨step, mem, written⟩,
      fun holder written => List.mem_filterMap.mpr ⟨step, mem, written⟩⟩
  apply run_invariant _ (watches_start me distinct.names) along reached
  intro state taken next watches among stepped
  exact watches.step among stepped

variable (sha256 me)

/-- In every run whose cut digests are distinct, once the changes stop and every
event is delivered, the replica shows the cluster if and only if every HubEndpoint
and every Lease that `resync` listed was still there when the informer took its own
list, or has been created again since. -/
theorem view_converges_iff {steps : List KubeStep} {store : KubeStore}
    (distinct : NamesDistinct sha256 me steps)
    (reached : run (kubeStep sha256 me) {} steps = some store) (quiet : Quiet store) :
    Converged sha256 me store ↔ store.endpoints.stale = ∅ ∧ store.leaseFeed.stale = ∅ := by
  have watches := watches_run distinct reached
  have synced : store.phase = .synced :=
    eq_synced (watches.started (.inl quiet.watchesEndpoints))
  have endpoints := watches.endpoints.tracks quiet.watchesEndpoints
  rw [KubeStore.shownIndex, synced] at endpoints
  have leases := watches.leases.tracks quiet.watchesLeases
  have index_iff := (index_exact_iff endpoints.objects).trans
    (endpoints.exact_iff quiet.endpointsTold)
  have leases_iff := leases_exact_iff.trans (leases.exact_iff quiet.leasesTold)
  constructor
  · intro converged
    exact ⟨index_iff.mp converged.index, leases_iff.mp converged.leases⟩
  · intro fresh
    have index := index_iff.mpr fresh.1
    have table := leases_iff.mpr fresh.2
    refine ⟨index, table, ?_, ?_⟩
    · intro name now record
      rw [exists_pick]
      exact mem_liveProviders_iff watches index table
    · intro name now
      exact mem_catalog_iff watches index table

/-- SHA-256 of the texts that the runs below hash. -/
def knownDigests : String → String
  | "a" => "ca978112ca1bbdcafac231b39a23dc4da786eff8147c4e72b9807785afee48bb"
  | "a\x00c\x00web" => "3fbb6bc00288a3bfb35a1a9f21d631752e2d514134fa4f78cbbbd0976e180af0"
  | "a\x00c\x00db" => "b044f29d69fc3f1b8b7760b1db1615473c890aaef915e6b5bdd213e90a2b8998"
  | _ => ""

/-- A peer registers before this replica starts, and withdraws one of its two
services when the informers run. -/
def servingSteps : List KubeStep :=
  [.putLease "a" ⟨some 0, 15⟩, .putEndpoint "a" "c" "web" .direct "10.0.0.1:80" "" "",
    .putEndpoint "a" "c" "db" .deliver "" "ws://a" "",
    .listEndpoints true, .listLeases true, .watchEndpoints, .watchLeases,
    .deliverLease, .deliverEndpoint, .deleteEndpoint (endpointName knownDigests "a" "c" "web"),
    .deliverEndpoint, .deliverEndpoint]

theorem servingSteps_distinct : NamesDistinct knownDigests ⟨"b", ""⟩ servingSteps :=
  ⟨by decide +kernel, by decide +kernel⟩

theorem servingSteps_converges :
    ∃ store, run (kubeStep knownDigests ⟨"b", ""⟩) {} servingSteps = some store ∧
      Converged knownDigests ⟨"b", ""⟩ store := by
  have runs : (run (kubeStep knownDigests ⟨"b", ""⟩) {} servingSteps).any
      (fun store => store.endpoints.watching && store.leaseFeed.watching &&
        (store.endpoints.events.isEmpty && store.leaseFeed.events.isEmpty) &&
        (store.endpoints.stale.entries.isEmpty &&
          store.leaseFeed.stale.entries.isEmpty)) = true := by
    decide +kernel
  obtain ⟨store, reached, holds⟩ := (any_eq_true _ _).mp runs
  simp only [and_eq_true, List.isEmpty_iff] at holds
  obtain ⟨⟨⟨endpoints, leases⟩, told, leasesTold⟩, stale, staleLeases⟩ := holds
  have quiet : Quiet store := ⟨endpoints, leases, told, leasesTold⟩
  exact ⟨store, reached, (view_converges_iff knownDigests ⟨"b", ""⟩ servingSteps_distinct reached
    quiet).mpr ⟨ext stale, ext staleLeases⟩⟩

/-- A spoke of another replica connects and leaves while this one starts. -/
def leavingSteps : List KubeStep :=
  [.putEndpoint "a" "c" "web" .direct "10.0.0.1:80" "" "",
    .putLease "a" ⟨some 0, 15⟩, .listEndpoints true, .listLeases true,
    .deleteEndpoint (endpointName sha256 "a" "c" "web"), .watchEndpoints,
    .watchLeases, .deliverLease]

/-- One provider and one replica cannot be confused with another. -/
theorem leavingSteps_distinct : NamesDistinct sha256 me (leavingSteps sha256) := by
  constructor
  · intro provider mem other mem' _
    rw [List.mem_singleton.mp mem, List.mem_singleton.mp mem']
  · intro holder mem other mem' _
    rw [List.mem_singleton.mp mem, List.mem_singleton.mp mem']

/-- The object that is deleted between the two lists stays in the index, whatever
the names of the objects are. -/
theorem leavingSteps_not_converges : ¬∃ sha256 me, ViewConverges sha256 me := by
  intro holds
  obtain ⟨sha256, me, converges⟩ := holds
  let name := endpointName sha256 "a" "c" "web"
  let record : Provider :=
    ⟨name, "c", "web", .direct, "10.0.0.1:80", "a", "", ""⟩
  let listed : Dict Provider := insert name record ∅
  let leases : Dict Lease :=
    insert (leaseName sha256 "a") ⟨"a", some 0, 15⟩ ∅
  let before : KubeStore :=
    { endpoints := { objects := listed, stale := listed },
      leaseFeed := { objects := leases, stale := leases }, phase := .synced,
      index := indexOf listed, leases := leasesOf leases }
  have there : listed.lookup name = some record := lookup_insert _
  have gone : listed.erase name = ∅ := ext (List.kerase_cons_eq rfl)
  have deleted : kubeStep sha256 me before (.deleteEndpoint name) =
      some { before with endpoints := { objects := ∅, stale := listed } } := by
    have removed : before.endpoints.remove name =
        { objects := listed.erase name, stale := listed } := by
      rw [Feed.remove, there]
      rfl
    rw [gone] at removed
    rw [kubeStep, removed]
  obtain ⟨store, reached, quiet, index, objects⟩ : ∃ store,
      run (kubeStep sha256 me) {} (leavingSteps sha256) = some store ∧
      Quiet store ∧ store.index = indexOf listed ∧ store.endpoints.objects = ∅ := by
    have start : run (kubeStep sha256 me) {} (leavingSteps sha256) =
        run (kubeStep sha256 me) before [.deleteEndpoint name, .watchEndpoints,
          .watchLeases, .deliverLease] := rfl
    rw [start, run, deleted]
    exact ⟨_, rfl, ⟨rfl, rfl, rfl, rfl⟩, rfl, rfl⟩
  have shows : look store.index ("web", name) = some record := by
    rw [index]
    change look (onEndpoint ∅ record) ("web", name) = some record
    rw [look_onEndpoint, Function.update_self]
  have distinct := leavingSteps_distinct sha256 me
  have exact := ((converges _ _ distinct reached quiet).index "web" name record).mp shows
  rw [objects] at exact
  cases exact.1

end Cornus.Hub
