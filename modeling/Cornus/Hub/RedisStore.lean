import Cornus.Lib.Dict
import Cornus.Lib.Run
import Cornus.Lib.Strings

/-!
# The hub registry of one replica over Redis

A replica keeps the providers its connections registered in `owned` and writes
each to a shared hash.  What a write should bring about stays in `pending` until
it has succeeded, and the heartbeat drives it again until then.  `wmu` serialises
the mutations with their writes; `mu` guards the tables and is never held during
a write.

A step is one section under `mu`, or one write.  A write may succeed, be lost, or
take effect and report an error all the same.
-/

namespace Cornus.Hub

/-- How a provider is reached. -/
inductive Mode where
  | direct
  | deliver
  deriving DecidableEq

/-- The record that is shared of a provider. -/
structure ProviderRecord where
  connID : String
  mode : Mode
  (addr owner forwardAddr protocol : String)
  deriving DecidableEq

/-- `pendingOp`: the record to set, or `none` to delete. -/
structure PendingOp where
  name : String
  blob : Option ProviderRecord
  seq : UInt64
  deriving DecidableEq

/-- The holder of `wmu`: the writes it has still to make, and the one that has
succeeded and is to be cleared from the queue. -/
structure Writer where
  waiting : List (String × PendingOp)
  landed : Option (String × PendingOp) := none
  deriving DecidableEq

/-- The shared hashes, by key and field, as far as this replica writes them. -/
abbrev Hashes := AList fun _ : String × String => ProviderRecord

/-- The state of one replica. -/
structure Replica where
  owned : Dict (Dict String) := ∅
  muxes : Dict Nat := ∅
  pending : Dict PendingOp := ∅
  seq : UInt64 := 0
  /-- The holder of `wmu`. -/
  writer : Option Writer := none
  /-- The providers a pass of `reconcile` has still to go through. -/
  pass : List String := []
  shared : Hashes := ∅
  records : Dict ProviderRecord := ∅

/-- The name of the replica and the address its peers dial. -/
structure Identity where
  (replicaID forwardAddr : String)

/-- The hash of a service. -/
def svcKey (name : String) : String :=
  "hub:svc:" ++ name

/-- The field of a provider in that hash. -/
def Identity.providerID (self : Identity) (connID name : String) : String :=
  self.replicaID ++ ":" ++ connID ++ ":" ++ name

/-- How a write to the shared store ends. -/
inductive Fate where
  | done
  | lost
  /-- It takes effect and reports an error. -/
  | unacknowledged
  deriving DecidableEq

/-- What happens at a replica. -/
inductive Action where
  | register (connID name addr protocol : String)
  | registerDeliver (connID name : String) (mux : Option Nat)
  /-- The order is the one in which the map of providers is gone through. -/
  | removeConn (connID : String) (order : List String)
  /-- The holder of `wmu` makes one of its writes. -/
  | write (index : Nat) (fate : Fate)
  | clear
  | unlock
  | reconcile
  | reconcileOne
  /-- The deadline of a pass goes by. -/
  | expire
  deriving DecidableEq

variable (replica : Replica) (pid name : String)

/-- An operation with the next number. -/
def enqueue (blob : Option ProviderRecord) : Replica × PendingOp :=
  let op : PendingOp := ⟨name, blob, replica.seq + 1⟩
  ({ replica with
      seq := replica.seq + 1, pending := replica.pending.insert pid op }, op)

/-- A provider is owned and queued to be written. -/
def put (self : Identity) (replica : Replica) (connID name : String)
    (record : ProviderRecord) (mux : Option Nat) : Replica :=
  let pid := self.providerID connID name
  let pids := (replica.owned.lookup connID).getD ∅
  let muxes :=
    match mux with
    | none => replica.muxes
    | some mux => replica.muxes.insert pid mux
  let (queued, op) := enqueue { replica with
      owned := replica.owned.insert connID (pids.insert pid name)
      muxes
      records := replica.records.insert pid record }
    pid name (some record)
  { queued with writer := some { waiting := [(pid, op)] } }

/-- The withdrawals of `RemoveConn`, one for each of its providers. -/
def enqueueAll (replica : Replica) : List (String × String) → Replica × List (String × PendingOp)
  | [] => (replica, [])
  | (pid, name) :: rest =>
    let (queued, op) := enqueue { replica with muxes := replica.muxes.erase pid } pid name none
    let (final, ops) := enqueueAll queued rest
    (final, (pid, op) :: ops)

/-- `removeConn`. -/
def removeConn (connID : String) (order : List String) : Replica :=
  let pids := (replica.owned.lookup connID).getD ∅
  let (queued, ops) := enqueueAll { replica with owned := replica.owned.erase connID }
    (order.filterMap fun pid => (pids.lookup pid).map (pid, ·))
  { queued with writer := some { waiting := ops } }

/-- The shared hashes after an operation. -/
def writeOp (shared : Hashes) (pid : String) (op : PendingOp) : Hashes :=
  match op.blob with
  | none => shared.erase (svcKey op.name, pid)
  | some record => shared.insert (svcKey op.name, pid) record

/-- The queue after a write has succeeded: an op that was replaced meanwhile
stays. -/
def clearOp (pending : Dict PendingOp) (pid : String) (op : PendingOp) : Dict PendingOp :=
  match pending.lookup pid with
  | none => pending
  | some current => if current.seq = op.seq then pending.erase pid else pending

/-- The replica after an action. -/
def Replica.step (self : Identity) (replica : Replica) : Action → Option Replica
  | .register connID name addr protocol =>
    match replica.writer with
    | some _ => none
    | none => some (put self replica connID name
        ⟨connID, .direct, addr, self.replicaID, self.forwardAddr, protocol⟩ none)
  | .registerDeliver connID name mux =>
    match replica.writer with
    | some _ => none
    | none => some (put self replica connID name
        ⟨connID, .deliver, "", self.replicaID, self.forwardAddr, ""⟩ mux)
  | .removeConn connID order =>
    match replica.writer with
    | some _ => none
    | none =>
      if order.isPerm ((replica.owned.lookup connID).getD ∅).keys then
        some (removeConn replica connID order)
      else none
  | .write index fate =>
    match replica.writer with
    | some ⟨waiting, none⟩ =>
      match waiting[index]? with
      | none => none
      | some (pid, op) =>
        let rest := waiting.eraseIdx index
        match fate with
        | .done =>
          some { replica with
                 shared := writeOp replica.shared pid op,
                 writer := some ⟨rest, some (pid, op)⟩ }
        | .lost => some { replica with writer := some ⟨rest, none⟩ }
        | .unacknowledged =>
          some { replica with
                 shared := writeOp replica.shared pid op,
                 writer := some ⟨rest, none⟩ }
    | _ => none
  | .clear =>
    match replica.writer with
    | some ⟨waiting, some (pid, op)⟩ =>
      some { replica with
             pending := clearOp replica.pending pid op,
             writer := some ⟨waiting, none⟩ }
    | _ => none
  | .unlock =>
    match replica.writer with
    | some ⟨[], none⟩ => some { replica with writer := none }
    | _ => none
  | .reconcile =>
    match replica.pass with
    | [] => some { replica with pass := sortStrings replica.pending.keys }
    | _ => none
  | .reconcileOne =>
    match replica.writer, replica.pass with
    | none, pid :: rest =>
      match replica.pending.lookup pid with
      | none => some { replica with pass := rest }
      | some op =>
        some { replica with
          pass := rest, writer := some { waiting := [(pid, op)] } }
    | _, _ => none
  | .expire => some { replica with pass := [] }

/-- The replica's owned table has the provider, for this service. -/
def Owns : Prop :=
  ∃ connID pids, replica.owned.lookup connID = some pids ∧ pids.lookup pid = some name

/-- What the replica's owned table wants in the hash of a service: the last
registered record of each of its providers. -/
def Wants (name pid : String) (record : ProviderRecord) : Prop :=
  Owns replica pid name ∧ replica.records.lookup pid = some record

/-- The connection's id has no colon. -/
def Action.colonFree : Action → Bool
  | .register connID _ _ _ => !connID.toList.contains ':'
  | .registerDeliver connID _ _ => !connID.toList.contains ':'
  | .removeConn connID _ => !connID.toList.contains ':'
  | _ => true

end Cornus.Hub
