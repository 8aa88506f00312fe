import Cornus.Lib.NetAddress

/-!
# The router of the proxy

A target is a published name, or the rules rewrite it to a service and a port,
or it is a bare label that a deployment claims; what is none of these is dialed
directly.  During a recovery window a name that nothing claims yet is pending.

A rule is what its pattern and its template make of a subject.  Dialers and
published listeners are given by their identities, and the claims of a label by
the list that the map holds for it; the channels of waiters stand in one list
with the label that each waits for.  Time is a number.
-/

namespace Cornus.Socks5

open Function

/-- A compiled rule: the rewritten subject, where the pattern matches. -/
abbrev Rule := String → Option String

/-- A deployment's claim on a label, with its count. -/
structure AliasClaim where
  deployment : String
  (n seq : Nat)
  dialer : Option Nat
deriving DecidableEq

/-- What a client asks to claim. -/
structure AliasSpec where
  (label deployment : String)
  seq : Nat := 0
  dialer : Option Nat := none

/-- The answer to a claim. -/
structure AliasReg where
  seq : Nat := 0
  winner : String := ""
  changed : Bool := false
deriving DecidableEq

/-- A listener that serves a subject. -/
structure LocalClaim where
  (local_ seq id : Nat)
deriving DecidableEq

structure LocalHandle where
  subject : String
  id : Nat
deriving DecidableEq

/-- The answer to a registration. -/
structure LocalReg where
  handle : LocalHandle := ⟨"", 0⟩
  seq : Nat := 0
  (serving changed : Bool := false)
deriving DecidableEq

/-- The errors of `splitServicePort`. -/
inductive SplitError where
  | noPort
  | emptyService
  | notNumber (port : String)
  | outOfRange (port : Int)
deriving DecidableEq

/-- What a destination resolves to. -/
inductive Result where
  | direct
  | service (name : String) (port : Nat) (dialer : Option Nat)
  | local_ (listener : Nat)
  | pending (label : String) (port : Nat)
deriving DecidableEq

/-- A rule has rewritten a subject to something that is not a service and a
port. -/
structure RewriteError where
  (subject out : String)
  cause : SplitError
deriving DecidableEq

/-- The router.  Its sequence numbers are those of the source below 2^64 - 1, where
the `uint64` behind them wraps. -/
structure Router where
  rules : List Rule
  aliases : String → List AliasClaim := fun _ => []
  seqNext : Nat := 0
  locals : String → List LocalClaim := fun _ => []
  localIdNext : Nat := 0
  recoverUntil : Option Nat := none
  claimWaiters : List (String × Nat) := []
  bareServiceNames : Bool := true

/-! ## Claims on labels -/

/-- A claim that is repeated is counted. -/
def bumpClaim (deployment : String) (dialer : Option Nat) :
    List AliasClaim → Option (Nat × List AliasClaim)
  | [] => none
  | claim :: claims =>
    if claim.deployment = deployment then
      some (claim.seq, { claim with
          n := claim.n + 1
          dialer := if dialer.isSome then dialer else claim.dialer } :: claims)
    else
      (bumpClaim deployment dialer claims).map fun found =>
        (found.1, claim :: found.2)

/-- A new claim, before the first one with a larger number. -/
def insertClaim (new : AliasClaim) : List AliasClaim → List AliasClaim
  | [] => [new]
  | claim :: claims =>
    if new.seq < claim.seq then new :: claim :: claims
    else claim :: insertClaim new claims

/-- A claim is counted down and goes with the last. -/
def dropClaim (deployment : String) : List AliasClaim → Option (Nat × List AliasClaim)
  | [] => none
  | claim :: claims =>
    if claim.deployment = deployment then
      if 1 < claim.n then
        some (claim.seq, { claim with n := claim.n - 1 } :: claims)
      else some (claim.seq, claims)
    else
      (dropClaim deployment claims).map fun found =>
        (found.1, claim :: found.2)

/-- The latest claim serves the label. -/
def winnerOf (claims : List AliasClaim) : String :=
  match claims.getLast? with
  | none => ""
  | some claim => claim.deployment

namespace Router

variable (router : Router) (spec : AliasSpec)

/-- `claimLocked`, with the channels of the waiters that it releases. -/
def claimLocked : AliasReg × Router × List Nat :=
  let claims := router.aliases spec.label
  let before := winnerOf claims
  match bumpClaim spec.deployment spec.dialer claims with
  | some (seq, claims) =>
    ({ seq, winner := before },
      { router with aliases := update router.aliases spec.label claims }, [])
  | none =>
    let claims := insertClaim
      { deployment := spec.deployment, n := 1, seq := spec.seq
        dialer := spec.dialer } claims
    let after := winnerOf claims
    ({ seq := spec.seq, winner := after, changed := after ≠ before },
      { router with
        aliases := update router.aliases spec.label claims,
        claimWaiters := router.claimWaiters.filter (·.1 ≠ spec.label) },
      (router.claimWaiters.filter (·.1 = spec.label)).map Prod.snd)

/-- `Claim`: the answer, the router and the waiters to wake. -/
def claim : AliasReg × Router × List Nat :=
  if spec.label = "" ∨ spec.deployment = "" then ({}, router, [])
  else if spec.seq ≠ 0 then
    { router with seqNext := max router.seqNext (spec.seq + 1) }.claimLocked spec
  else
    let seq := max router.seqNext 1
    { router with seqNext := seq + 1 }.claimLocked { spec with seq }

/-- `UnregisterAlias`. -/
def unregisterAlias (label deployment : String) : AliasReg × Router :=
  if label = "" ∨ deployment = "" then ({}, router)
  else
    let claims := router.aliases label
    let before := winnerOf claims
    match dropClaim deployment claims with
    | none => ({ winner := before }, router)
    | some (seq, claims) =>
      let after := winnerOf claims
      ({ seq, winner := after, changed := after ≠ before },
        { router with aliases := update router.aliases label claims })

/-! ## Published names -/

variable (host : String) (port : Nat)

def localSubject : String :=
  host ++ ":" ++ toString port

/-- The listener that serves the subject. -/
def servingLocal (subject : String) : Nat :=
  ((router.locals subject).getLast?.map LocalClaim.id).getD 0

/-- A new claim on a subject, before the first one with a larger number. -/
def insertLocal (new : LocalClaim) : List LocalClaim → List LocalClaim
  | [] => [new]
  | claim :: claims =>
    if new.seq < claim.seq then new :: claim :: claims
    else claim :: insertLocal new claims

/-- A listener is entered for a subject. -/
def publishLocked (port listener seq : Nat) : LocalReg × Router :=
  let subject := localSubject host port
  let before := router.servingLocal subject
  let id := router.localIdNext + 1
  let claims := insertLocal { local_ := listener, seq, id }
    (router.locals subject)
  let next : Router :=
    { router with localIdNext := id, locals := update router.locals subject claims }
  let after := next.servingLocal subject
  ({ handle := { subject, id }, seq, serving := after = id
     changed := after ≠ before }, next)

/-- `RegisterLocal`. -/
def registerLocal (port : Int) (listener : Option Nat) : LocalReg × Router :=
  match listener with
  | none => ({}, router)
  | some listener =>
    if host = "" ∨ port < 1 ∨ 65535 < port then ({}, router)
    else
      let seq := max router.seqNext 1
      { router with seqNext := seq + 1 }.publishLocked host port.toNat listener seq

/-- `UnregisterLocal`. -/
def unregisterLocal (handle : LocalHandle) : LocalReg × Router :=
  if handle.subject = "" ∨ handle.id = 0 then ({}, router)
  else
    let claims := router.locals handle.subject
    match claims.find? (·.id = handle.id) with
    | none => ({}, router)
    | some found =>
      let before := router.servingLocal handle.subject
      let next : Router :=
        { router with
          locals := update router.locals handle.subject (claims.eraseP (·.id = handle.id)) }
      ({ seq := found.seq, changed := next.servingLocal handle.subject ≠ before }, next)

/-- The local listener for a destination. -/
def lookupLocal : Option Nat :=
  (router.locals (localSubject host port)).getLast?.map LocalClaim.local_

/-! ## Resolution -/

variable (now : Nat)

/-- Claims from before a restart may still come in. -/
def recovering : Bool :=
  match router.recoverUntil with
  | none => false
  | some until_ => now < until_

/-- `splitServicePort`. -/
def splitServicePort (text : String) : Except SplitError (String × Nat) :=
  match splitOnChar ':' text with
  | [] => .error .noPort
  | [_] => .error .noPort
  | parts =>
    let service := ":".intercalate parts.dropLast
    let portText := parts.getLast?.getD ""
    if service = "" then .error .emptyService
    else
      match Lib.Ip.atoi portText with
      | none => .error (.notNumber portText)
      | some port =>
        if port < 1 ∨ 65535 < port then .error (.outOfRange port)
        else .ok (service, port.toNat)

/-- The first rule that matches. -/
def rewrite (subject : String) : Option String :=
  router.rules.findSome? fun rule => rule subject

/-- The host has no dot. -/
def isBareLabel : Bool :=
  !host.toList.contains '.'

/-- The deployment that serves the label, or that one may come. -/
def claimOrRecovering (label : String) : String × Option Nat × Bool :=
  match (router.aliases label).getLast? with
  | none => ("", none, router.recovering now)
  | some claim => (claim.deployment, claim.dialer, false)

/-- The destination that a rule has rewritten. -/
def resolveRewritten (subject out : String) : Except RewriteError Result :=
  match splitServicePort out with
  | .error cause => .error { subject, out, cause }
  | .ok (service, port) =>
    let (deployment, dialer, recovering) :=
      router.claimOrRecovering now service
    if deployment = "" ∧ recovering then .ok (.pending service port)
    else
      let service := if deployment = "" then service else deployment
      .ok (.service service port dialer)

/-- A bare label, where those are served. -/
def resolveBare (host : String) (port : Nat) : Result :=
  if router.bareServiceNames then
    let (deployment, dialer, recovering) := router.claimOrRecovering now host
    if deployment ≠ "" then .service deployment port dialer
    else if recovering ∧ isBareLabel host then .pending host port
    else .direct
  else .direct

/-- `Resolve`. -/
def resolve (host : String) (port : Nat) : Except RewriteError Result :=
  match router.lookupLocal host port with
  | some listener => .ok (.local_ listener)
  | none =>
    match router.rewrite (localSubject host port) with
    | some out => router.resolveRewritten now (localSubject host port) out
    | none => .ok (router.resolveBare now host port)

end Router

end Cornus.Socks5
