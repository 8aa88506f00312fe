import Cornus.Kubernetes.Reapply

/-!
# Volume claims and the garbage collector

`Apply` writes a workload and then sees to the claims of its volumes, one API
call after the other, while the collector runs.  An anonymous claim is owned by
the workload it was created for.  The collector marks a claim none of whose
owners is left or stays, removes a marked claim, and removes a workload that is
being deleted once no claim refers to it.

No other client takes part.  Waiting with a deadline is a poll that may be
repeated, or a failure of the apply.
-/

namespace Cornus.Kubernetes

open Lib

/-- A workload in the API server. -/
structure Incumbent where
  uid : Nat
  terminating : Bool := false
  deriving DecidableEq

/-- A claim with its owners. -/
structure VolumeClaim where
  owners : List Owner
  terminating : Bool := false
  deriving DecidableEq

/-- The workloads by kind and name. -/
abbrev Incumbents := AList fun _ : WorkloadKind × String => Incumbent

/-- The objects of the API server. -/
structure World where
  workloads : Incumbents := ∅
  claims : Dict VolumeClaim := ∅

/-- The owner exists and is not terminating. -/
def Solid (workloads : Incumbents) (owner : Owner) : Prop :=
  workloads.lookup (owner.kind, owner.name) = some ⟨owner.uid, false⟩

instance (workloads : Incumbents) (owner : Owner) : Decidable (Solid workloads owner) :=
  inferInstanceAs (Decidable (_ = _))

/-- A claim that `ensurePVC` is called for, with whether it is anonymous. -/
structure ClaimRequest where
  name : String
  anonymous : Bool
  deriving DecidableEq

section Requests

variable (platform : Platform)

/-- The claim of a named volume. -/
def namedPvcName (logical : String) : String :=
  let base := sanitizeDns platform logical
  let base := if base = "" then "vol" else base
  let name := "cornus-vol-" ++ base ++ "-" ++ platform.shortHash logical
  String.ofList (name.toList.take 253)

/-- The claims that a spec asks for, by index. -/
def claimRequests (spec : DeploySpec) : List ClaimRequest :=
  spec.volumes.zipIdx.map fun volume =>
    if volume.1 = "" then ⟨spec.name ++ "-vol-" ++ toString volume.2, true⟩
    else ⟨namedPvcName platform volume.1, false⟩

end Requests

/-- How far an apply has got. -/
inductive Phase where
  /-- `applyDeployment` is about to look for the Deployment. -/
  | deploying (attempt : Nat)
  /-- There was none; it is about to create it. -/
  | creating (attempt : Nat)
  /-- It was being deleted: `waitDeploymentGone`. -/
  | awaiting (attempt : Nat)
  /-- It was there; it is about to be read again and updated. -/
  | updating (attempt : Nat)
  /-- `applyJob` is about to look for the Job. -/
  | starting
  /-- It was there and is about to be deleted. -/
  | replacing
  | awaitingJob
  | creatingJob
  | serving
  /-- `ensurePVC` is about to create the first of these claims. -/
  | ensuring (uid : Nat) (requests : List ClaimRequest)
  /-- The claim exists; it is about to be read. -/
  | inspecting (uid : Nat) (requests : List ClaimRequest)
  | done (uid : Nat)
  | failed
  deriving DecidableEq

/-- A call of the apply, or a turn of the garbage collector. -/
inductive VolumeEvent where
  /-- The next API call of the apply, and the UID the server assigns if the call
  creates a workload. -/
  | call (uid : Nat)
  | fail
  /-- The collector marks a claim for deletion. -/
  | mark (claim : String)
  /-- The collector drops a reference to an owner that is going or gone, as
  another one stays. -/
  | detach (claim : String) (owner : Owner)
  /-- The collector removes a marked claim. -/
  | collect (claim : String)
  /-- The collector removes a workload whose deletion was asked for. -/
  | finish (kind : WorkloadKind) (name : String)

/-- An apply under way. -/
structure Applying where
  world : World
  phase : Phase

variable (kind : WorkloadKind) (name : String) (requests : List ClaimRequest) (world : World)
  (uid : Nat)

/-- The server takes the UID only if it is new. -/
def World.createWorkload : Option Applying :=
  if ∀ entry ∈ world.claims.entries, (⟨kind, name, uid⟩ : Owner) ∉ entry.2.owners then
    some ⟨{ world with workloads := world.workloads.insert (kind, name) ⟨uid, false⟩ },
      .ensuring uid requests⟩
  else none

/-- `ensurePVC` creates the first claim, or finds that it exists. -/
def World.ensure : List ClaimRequest → Applying
  | [] => ⟨world, .done uid⟩
  | request :: rest =>
    match world.claims.lookup request.name with
    | none =>
      let owners := if request.anonymous then [⟨kind, name, uid⟩] else []
      ⟨{ world with claims := world.claims.insert request.name ⟨owners, false⟩ },
        .ensuring uid rest⟩
    | some _ => ⟨world, .inspecting uid (request :: rest)⟩

/-- `ensurePVC` reads the claim: a live one is reused, a terminating one waited
for. -/
def World.inspect : List ClaimRequest → Applying
  | [] => ⟨world, .done uid⟩
  | request :: rest =>
    match world.claims.lookup request.name with
    | none => ⟨world, .ensuring uid (request :: rest)⟩
    | some claim =>
      if claim.terminating then ⟨world, .ensuring uid (request :: rest)⟩
      else ⟨world, .ensuring uid rest⟩

/-- The next call of the apply, by its phase. -/
def callStep : Phase → Option Applying
  | .deploying attempt =>
    if attempt ≥ 3 then some ⟨world, .failed⟩
    else
      match world.workloads.lookup (kind, name) with
      | none => some ⟨world, .creating attempt⟩
      | some incumbent =>
        if incumbent.terminating then some ⟨world, .awaiting attempt⟩
        else some ⟨world, .updating attempt⟩
  | .creating attempt =>
    match world.workloads.lookup (kind, name) with
    | none => world.createWorkload kind name requests uid
    | some _ => some ⟨world, .deploying (attempt + 1)⟩
  | .awaiting attempt =>
    match world.workloads.lookup (kind, name) with
    | none => some ⟨world, .deploying (attempt + 1)⟩
    | some _ => some ⟨world, .awaiting attempt⟩
  | .updating attempt =>
    match world.workloads.lookup (kind, name) with
    | none => some ⟨world, .deploying (attempt + 1)⟩
    | some incumbent =>
      if incumbent.terminating then some ⟨world, .deploying (attempt + 1)⟩
      else some ⟨world, .ensuring incumbent.uid requests⟩
  | .starting =>
    match world.workloads.lookup (kind, name) with
    | none => some ⟨world, .creatingJob⟩
    | some _ => some ⟨world, .replacing⟩
  | .replacing =>
    match world.workloads.lookup (kind, name) with
    | none => some ⟨world, .awaitingJob⟩
    | some incumbent =>
      some ⟨{ world with
        workloads := world.workloads.insert (kind, name)
          { incumbent with terminating := true } }, .awaitingJob⟩
  | .awaitingJob =>
    match world.workloads.lookup (kind, name) with
    | none => some ⟨world, .creatingJob⟩
    | some _ => some ⟨world, .awaitingJob⟩
  | .creatingJob =>
    match world.workloads.lookup (kind, name) with
    | none => world.createWorkload kind name requests uid
    | some _ => some ⟨world, .failed⟩
  | .serving =>
    match world.workloads.lookup (kind, name) with
    | none =>
      some ⟨{ world with workloads := world.workloads.insert (kind, name) ⟨uid, false⟩ }, .done uid⟩
    | some incumbent => some ⟨world, .done incumbent.uid⟩
  | .ensuring uid requests => some (world.ensure kind name uid requests)
  | .inspecting uid requests => some (world.inspect uid requests)
  | .done _ => none
  | .failed => none

/-- A turn of the garbage collector. -/
def World.collector : VolumeEvent → Option World
  | .mark claim => do
    let found ← world.claims.lookup claim
    if found.owners ≠ [] ∧ ∀ owner ∈ found.owners, ¬Solid world.workloads owner then
      some { world with claims := world.claims.insert claim { found with terminating := true } }
    else none
  | .detach claim owner => do
    let found ← world.claims.lookup claim
    if ¬Solid world.workloads owner ∧ ∃ other ∈ found.owners, Solid world.workloads other then
      let owners := found.owners.filter (· ≠ owner)
      some { world with claims := world.claims.insert claim { found with owners } }
    else none
  | .collect claim => do
    let found ← world.claims.lookup claim
    if found.terminating then
      some { world with claims := world.claims.erase claim }
    else none
  | .finish kind name => do
    let incumbent ← world.workloads.lookup (kind, name)
    if incumbent.terminating ∧ ∀ entry ∈ world.claims.entries,
        (⟨kind, name, incumbent.uid⟩ : Owner) ∉ entry.2.owners then
      some { world with workloads := world.workloads.erase (kind, name) }
    else none
  | _ => none

/-- One event. -/
def volumeStep (state : Applying) : VolumeEvent → Option Applying
  | .call uid => callStep kind name requests state.world uid state.phase
  | .fail =>
    match state.phase with
    | .done _ => none
    | _ => some { state with phase := .failed }
  | event => (state.world.collector event).map fun world => { state with world }

/-- Where the apply of a kind begins. -/
def firstPhase : WorkloadKind → Phase
  | .deployment => .deploying 0
  | .job => .starting
  | .knativeService => .serving

/-- Whenever the apply has succeeded, the anonymous claims exist as long as the
workload does. -/
def ClaimsStay : Prop :=
  ∀ events state uid,
    run (volumeStep kind name requests) ⟨world, firstPhase kind⟩ events = some state →
    state.phase = .done uid →
    (state.world.workloads.lookup (kind, name)).map Incumbent.uid = some uid →
    ∀ request ∈ requests, request.anonymous → request.name ∈ state.world.claims

/-- The workload that the apply waits for before it creates its own: a
Deployment that is being deleted, or the Job it replaces. -/
def World.awaited : Option Owner :=
  match kind with
  | .deployment =>
    ((world.workloads.lookup (kind, name)).filter Incumbent.terminating).map
      fun incumbent => ⟨kind, name, incumbent.uid⟩
  | .job =>
    (world.workloads.lookup (kind, name)).map fun incumbent => ⟨kind, name, incumbent.uid⟩
  | .knativeService => none

/-- The claim is marked already, nobody's, or one of its owners stays or is
waited for. -/
def World.Accounted (claim : VolumeClaim) : Prop :=
  claim.terminating = true ∨ claim.owners = [] ∨
    ∃ owner ∈ claim.owners, Solid world.workloads owner ∨ world.awaited kind name = some owner

/-- Every anonymous claim is kept by an owner that stays. -/
def ClaimsAccounted : Prop :=
  ∀ request ∈ requests, request.anonymous → ∀ claim,
    world.claims.lookup request.name = some claim → world.Accounted kind name claim

end Cornus.Kubernetes
