import Cornus.Lib.Run
import Cornus.Socks5.Router

/-!
# Requests through the proxy

Any number of CONNECT requests go through `Proxy.handle`, each in its own
goroutine: the target is resolved, a pending one waits for a claim and is
resolved again, and what comes out is dialed.  Claims, withdrawals, the window
of a recovery and the time change in between.

A wait ends when its channel is closed, when the deadline it has read is
reached, or with the context.  A request waits once, so the channel has the
number of the request.
-/

namespace Cornus.Socks5

open Lib List Option

/-- Where a request stands in `handle`. -/
inductive Phase where
  | read
  | pending (label : String)
  | parked (label : String) (deadline : Nat)
  | awaited (claimed : Bool)
  | routed (result : Result)
  | failed
  | dialed (result : Result)
deriving DecidableEq

/-- A request for a connection. -/
structure Request where
  host : String
  port : Nat
  phase : Phase := .read
deriving DecidableEq

/-- The proxy and the requests it has read. -/
structure Proxy where
  router : Router
  now : Nat := 0
  requests : Nat → Option Request := fun _ => none
  closed : List Nat := []
  direct : List (String × Nat) := []

/-- The steps of a request. -/
inductive Action where
  | resolve
  | await
  | wake
  | timeout
  | cancel
  | resolveAgain
  | dispatch
deriving DecidableEq

/-- A step of a request, or a change of the router. -/
inductive Event where
  | claim (spec : AliasSpec)
  | unregisterAlias (label deployment : String)
  | registerLocal (host : String) (port : Int) (listener : Option Nat)
  | unregisterLocal (handle : LocalHandle)
  | setRecoveryUntil (until_ : Option Nat)
  | tick
  | connect (id : Nat) (host : String) (port : Nat)
  | act (id : Nat) (action : Action)

namespace Proxy

variable (proxy : Proxy) (id : Nat) (request : Request)

def setPhase (phase : Phase) : Proxy :=
  { proxy with
    requests := Function.update proxy.requests id (some { request with phase }) }

/-- `SetRecoveryUntil`; a window that is closed releases every waiter. -/
def setRecoveryUntil (until_ : Option Nat) : Proxy :=
  let router := { proxy.router with recoverUntil := until_ }
  if router.recovering proxy.now then { proxy with router }
  else
    { proxy with
      router := { router with claimWaiters := [] }
      closed := proxy.closed ++ router.claimWaiters.map Prod.snd }

/-- The part of `AwaitClaim` up to the wait. -/
def await (label : String) : Proxy :=
  match proxy.router.recoverUntil with
  | none => proxy.setPhase id request (.awaited false)
  | some deadline =>
    if ¬proxy.now < deadline then
      proxy.setPhase id request (.awaited false)
    else if proxy.router.aliases label ≠ [] then
      proxy.setPhase id request (.awaited true)
    else
      let router :=
        { proxy.router with claimWaiters := proxy.router.claimWaiters ++ [(label, id)] }
      { proxy with router }.setPhase id request (.parked label deadline)

/-- The request stops waiting; no claim has come. -/
def giveUp (label : String) : Proxy :=
  let router :=
    { proxy.router with claimWaiters := proxy.router.claimWaiters.erase (label, id) }
  { proxy with router }.setPhase id request (.awaited false)

/-- An unclaimed label is direct once the wait is over. -/
def afterWait (claimed : Bool) : Result → Result
  | .pending label port => if claimed then .pending label port else .direct
  | result => result

/-- The switch of `handle`: what is neither published nor a service is dialed
directly. -/
def dispatch (result : Result) : Proxy :=
  let next := proxy.setPhase id request (.dialed result)
  match result with
  | .local_ _ => next
  | .service _ _ _ => next
  | _ => { next with direct := next.direct ++ [(request.host, request.port)] }

/-- The next step of a request, by its phase. -/
def requestStep : Phase → Action → Option Proxy
  | .read, .resolve =>
    match proxy.router.resolve proxy.now request.host request.port with
    | .error _ => some (proxy.setPhase id request .failed)
    | .ok (.pending label _) =>
      some (proxy.setPhase id request (.pending label))
    | .ok result => some (proxy.setPhase id request (.routed result))
  | .pending label, .await => some (proxy.await id request label)
  | .parked _ _, .wake =>
    if id ∈ proxy.closed then
      some (proxy.setPhase id request (.awaited true))
    else none
  | .parked label deadline, .timeout =>
    if deadline ≤ proxy.now then some (proxy.giveUp id request label)
    else none
  | .parked label _, .cancel => some (proxy.giveUp id request label)
  | .awaited claimed, .resolveAgain =>
    match proxy.router.resolve proxy.now request.host request.port with
    | .error _ => some (proxy.setPhase id request .failed)
    | .ok result =>
      some (proxy.setPhase id request (.routed (afterWait claimed result)))
  | .routed result, .dispatch => some (proxy.dispatch id request result)
  | _, _ => none

/-- The proxy after an event. -/
def step : Event → Option Proxy
  | .claim spec =>
    let (_, router, woken) := proxy.router.claim spec
    some { proxy with router, closed := proxy.closed ++ woken }
  | .unregisterAlias label deployment =>
    some { proxy with router := (proxy.router.unregisterAlias label deployment).2 }
  | .registerLocal host port listener =>
    some { proxy with router := (proxy.router.registerLocal host port listener).2 }
  | .unregisterLocal handle =>
    some { proxy with router := (proxy.router.unregisterLocal handle).2 }
  | .setRecoveryUntil until_ => some (proxy.setRecoveryUntil until_)
  | .tick => some { proxy with now := proxy.now + 1 }
  | .connect id host port =>
    if proxy.requests id = none ∧ host ≠ "" then
      some { proxy with
        requests := Function.update proxy.requests id (some { host, port }) }
    else none
  | .act id action =>
    (proxy.requests id).bind fun request =>
      proxy.requestStep id request request.phase action

end Proxy

/-! ## Names that rules match -/

variable (rules : List Rule)

/-- A rule matches the host and the port. -/
def Matches (host : String) (port : Nat) : Prop :=
  ∃ rule ∈ rules, rule (Router.localSubject host port) ≠ none

/-- The bare label that a rule rewrites to. -/
def Router.ruleLabel (router : Router) (host : String) (port : Nat) : Option String :=
  (router.rewrite (localSubject host port)).bind fun out =>
    (splitServicePort out).toOption.map Prod.fst

/-- The connection stays inside. -/
def Result.inward : Result → Bool
  | .local_ _ => true
  | .service _ _ _ => true
  | _ => false

variable (proxy : Proxy)

/-- The router need not wait to answer for a target: no window is open, or the
target is published, or the label that a rule gives for it is claimed. -/
def Answered (host : String) (port : Nat) : Prop :=
  proxy.router.recovering proxy.now = false ∨
    proxy.router.lookupLocal host port ≠ none ∨
    ∀ label ∈ proxy.router.ruleLabel host port, proxy.router.aliases label ≠ []

instance (proxy : Proxy) (host : String) (port : Nat) : Decidable (Answered proxy host port) :=
  inferInstanceAs (Decidable (_ ∨ _ ∨ _))

/-- A request that has waited is resolved again only where its target is
answered. -/
def Settled : Event → Prop
  | .act id action =>
    action = .resolveAgain → ∀ request ∈ proxy.requests id, Answered proxy request.host request.port
  | _ => True

instance (proxy : Proxy) (event : Event) : Decidable (Settled proxy event) :=
  match event with
  | .act _ _ => inferInstanceAs (Decidable (_ → _))
  | .claim _ | .unregisterAlias _ _ | .registerLocal _ _ _
  | .unregisterLocal _ | .setRecoveryUntil _ | .tick | .connect _ _ _ =>
    isTrue trivial

section Resolve

variable {router : Router} {now : Nat} {host : String} {port : Nat}

theorem rewrite_of_matches (matched : Matches router.rules host port) :
    ∃ out, router.rewrite (Router.localSubject host port) = some out := by
  obtain ⟨rule, mem, hit⟩ := matched
  obtain ⟨out, given⟩ := ne_none_iff_exists'.mp hit
  have found : router.rewrite (Router.localSubject host port) ≠ none := by
    intro missed
    rw [Router.rewrite, findSome?_eq_none_iff] at missed
    rw [missed rule mem] at given
    cases given
  exact ne_none_iff_exists'.mp found

theorem resolve_matched (matched : Matches router.rules host port)
    {result : Result} (resolved : router.resolve now host port = .ok result) :
    result.inward = true ∨ router.recovering now = true ∧ router.lookupLocal host port = none ∧
        ∃ label servicePort, result = .pending label servicePort ∧
          router.ruleLabel host port = some label ∧ router.aliases label = [] := by
  obtain ⟨out, rewritten⟩ := rewrite_of_matches matched
  rw [Router.resolve] at resolved
  cases published : router.lookupLocal host port with
  | some listener =>
    rw [published] at resolved
    cases resolved
    exact .inl rfl
  | none =>
    rw [published, rewritten] at resolved
    simp only [Router.resolveRewritten] at resolved
    cases split : Router.splitServicePort out with
    | error cause =>
      rw [split] at resolved
      cases resolved
    | ok target =>
      obtain ⟨service, servicePort⟩ := target
      rw [split] at resolved
      simp only [Router.claimOrRecovering] at resolved
      cases claims : (router.aliases service).getLast? with
      | some claim =>
        simp [claims] at resolved
        cases resolved
        exact .inl rfl
      | none =>
        simp only [claims] at resolved
        split at resolved
        · rename_i recovering
          cases resolved
          refine .inr ⟨recovering.2, rfl, service, servicePort, rfl, ?_,
            getLast?_eq_none_iff.mp claims⟩
          simp [Router.ruleLabel, rewritten, split, Except.toOption]
        · cases resolved
          exact .inl rfl

theorem inward_of_answered {proxy : Proxy} (matched : Matches proxy.router.rules host port)
    (answered : Answered proxy host port)
    (resolved : proxy.router.resolve proxy.now host port = .ok result) : result.inward = true := by
  rcases resolve_matched matched resolved with inward |
    ⟨recovering, unpublished, label, servicePort, -, given, unclaimed⟩
  · exact inward
  · rcases answered with closed | published | claimed
    · rw [recovering] at closed
      cases closed
    · exact absurd unpublished published
    · exact absurd unclaimed (claimed label given)

end Resolve

variable (router : Router)

theorem rules_claim (spec : AliasSpec) : (router.claim spec).2.1.rules = router.rules := by
  have locked : ∀ (router : Router) (spec : AliasSpec),
      (router.claimLocked spec).2.1.rules = router.rules := by
    intro router spec
    rw [Router.claimLocked]
    split <;> rfl
  rw [Router.claim]
  split
  · rfl
  · split <;> exact locked _ _

theorem rules_unregisterAlias (label deployment : String) :
    (router.unregisterAlias label deployment).2.rules = router.rules := by
  simp only [Router.unregisterAlias]
  split
  · rfl
  · split <;> rfl

theorem rules_registerLocal (host : String) (port : Int) (listener : Option Nat) :
    (router.registerLocal host port listener).2.rules = router.rules := by
  cases listener with
  | none => rfl
  | some listener =>
    simp only [Router.registerLocal]
    split <;> rfl

theorem rules_unregisterLocal (handle : LocalHandle) :
    (router.unregisterLocal handle).2.rules = router.rules := by
  simp only [Router.unregisterLocal]
  split
  · rfl
  · split <;> rfl

/-- What every step keeps: a target that a rule matches is routed inward, and
the direct dialer has met none. -/
structure Kept : Prop where
  same : proxy.router.rules = rules
  routed : ∀ id request result, proxy.requests id = some request →
    request.phase = .routed result → Matches rules request.host request.port → result.inward = true
  direct : ∀ target ∈ proxy.direct, ¬Matches rules target.1 target.2

section Steps

variable {rules : List Rule} {proxy : Proxy}

theorem Kept.of_router (kept : Kept rules proxy) {router : Router} {now : Nat}
    {closed : List Nat} (same : router.rules = proxy.router.rules) :
    Kept rules { proxy with router, now, closed } :=
  ⟨same.trans kept.same, kept.routed, kept.direct⟩

variable {id : Nat}

theorem Kept.setPhase (kept : Kept rules proxy)
    {phase : Phase} (inward : ∀ result, phase = .routed result →
      Matches rules request.host request.port → result.inward = true) :
    Kept rules (proxy.setPhase id request phase) := by
  refine ⟨kept.same, ?_, kept.direct⟩
  intro other moved result found routed matched
  simp only [Proxy.setPhase, Function.update_apply] at found
  split at found
  · cases found
    exact inward result routed matched
  · exact kept.routed other moved result found routed matched

theorem Kept.requestStep (kept : Kept rules proxy) (found : proxy.requests id = some request)
    {action : Action} (settled : Settled proxy (.act id action)) {next : Proxy}
    (taken : proxy.requestStep id request request.phase action = some next) : Kept rules next := by
  have unrouted : ∀ phase, (∀ result, phase ≠ .routed result) →
      Kept rules (proxy.setPhase id request phase) := by
    intro phase other
    apply kept.setPhase
    intro result routed
    exact absurd routed (other result)
  have giveUp : ∀ label, Kept rules (proxy.giveUp id request label) := by
    intro label
    apply (kept.of_router _).setPhase
    · intro result routed
      cases routed
    · rfl
  have inward : ∀ result, (Matches rules request.host request.port → result.inward = true) →
      Kept rules (proxy.setPhase id request (.routed result)) := by
    intro result routed
    apply kept.setPhase
    intro other same
    cases same
    exact routed
  unfold Proxy.requestStep at taken
  split at taken
  · -- The first resolution: what is pending waits.
    split at taken
    · cases taken
      exact unrouted _ (by simp)
    · cases taken
      exact unrouted _ (by simp)
    · rename_i result notPending resolved
      cases taken
      apply inward
      intro matched
      rw [← kept.same] at matched
      rcases resolve_matched matched resolved with yes | ⟨-, -, label, port, isPending, -⟩
      · exact yes
      · exact absurd isPending (notPending label port)
  · cases taken
    rename_i label _
    simp only [Proxy.await]
    split
    · exact unrouted _ (by simp)
    split
    · exact unrouted _ (by simp)
    split
    · exact unrouted _ (by simp)
    apply (kept.of_router _).setPhase
    · intro result routed
      cases routed
    · rfl
  · split at taken <;> cases taken
    exact unrouted _ (by simp)
  · split at taken <;> cases taken
    exact giveUp _
  · cases taken
    exact giveUp _
  · -- The second resolution is answered.
    split at taken
    · cases taken
      exact unrouted _ (by simp)
    · rename_i result resolved
      cases taken
      apply inward
      intro matched
      rw [← kept.same] at matched
      have yes := inward_of_answered matched (settled rfl request found) resolved
      cases result with
      | pending label port => cases yes
      | direct | service name port dialer | local_ listener => exact yes
  · rename_i result atPhase
    cases taken
    have dialed := unrouted (.dialed result) (by simp)
    have outward : result.inward = false →
        Kept rules { proxy.setPhase id request (.dialed result) with
          direct := proxy.direct ++ [(request.host, request.port)] } := by
      intro no
      refine ⟨dialed.same, dialed.routed, ?_⟩
      intro target mem
      rcases mem_append.mp mem with old | new
      · exact kept.direct target old
      rw [mem_singleton.mp new]
      intro matched
      have yes := kept.routed id request result found atPhase matched
      rw [no] at yes
      cases yes
    cases result with
    | local_ listener | service name port dialer => exact dialed
    | direct | pending label port => exact outward rfl
  · cases taken

/-- One event keeps matched requests inward. -/
theorem Kept.step (kept : Kept rules proxy) {event : Event}
    (settled : Settled proxy event) {next : Proxy}
    (taken : proxy.step event = some next) : Kept rules next := by
  cases event with
  | claim spec =>
    cases taken
    exact kept.of_router (rules_claim _ _)
  | unregisterAlias label deployment =>
    cases taken
    exact kept.of_router (rules_unregisterAlias _ _ _)
  | registerLocal host port listener =>
    cases taken
    exact kept.of_router (rules_registerLocal _ _ _ _)
  | unregisterLocal handle =>
    cases taken
    exact kept.of_router (rules_unregisterLocal _ _)
  | setRecoveryUntil until_ =>
    cases taken
    rw [Proxy.setRecoveryUntil]
    split <;> exact kept.of_router rfl
  | tick =>
    cases taken
    exact kept.of_router rfl
  | connect id host port =>
    simp only [Proxy.step] at taken
    split at taken <;> cases taken
    refine ⟨kept.same, ?_, kept.direct⟩
    intro other moved result found routed
    simp only [Function.update_apply] at found
    split at found
    · cases found
      cases routed
    · exact kept.routed other moved result found routed
  | act id action =>
    obtain ⟨request, found, moved⟩ := bind_eq_some_iff.mp taken
    exact kept.requestStep found settled moved

end Steps

/-- In every run whose waiting requests are resolved again only where their
targets are answered, no name that a rule matches is dialed directly. -/
theorem matched_never_direct {router : Router} {now : Nat} {events : List Event} {proxy : Proxy}
    (along : Along Proxy.step Settled { router, now } events)
    (reached : run Proxy.step { router, now } events = some proxy)
    {host : String} {port : Nat} (matched : Matches router.rules host port) :
    (host, port) ∉ proxy.direct := by
  have start : Kept router.rules { router, now } := by
    refine ⟨rfl, ?_, ?_⟩
    · intro id request result found
      cases found
    · intro target member
      cases member
  have final : Kept router.rules proxy := by
    apply run_invariant _ start along reached
    intro state event next kept settled taken
    exact kept.step settled taken
  intro member
  exact final.direct _ member matched

def suffixRule : Rule := fun subject =>
  if subject = "web.cornus.internal:80" then some "web:80" else none

/-- A request for a name that nothing claims waits through a window. -/
def waitingRun : List Event :=
  [.setRecoveryUntil (some 2), .connect 1 "web.cornus.internal" 80, .act 1 .resolve, .act 1 .await]

/-- The window closes, and the request is tunneled. -/
theorem closedWindow_inward : ∃ proxy, run Proxy.step { router := { rules := [suffixRule] } }
        (waitingRun ++ [.tick, .tick, .act 1 .timeout, .act 1 .resolveAgain,
          .act 1 .dispatch]) = some proxy ∧ ("web.cornus.internal", 80) ∉ proxy.direct := by
  obtain ⟨proxy, reached⟩ := isSome_iff_exists.mp
    (by decide +kernel : (run Proxy.step { router := { rules := [suffixRule] } }
      (waitingRun ++ [.tick, .tick, .act 1 .timeout, .act 1 .resolveAgain,
        .act 1 .dispatch])).isSome = true)
  refine ⟨proxy, reached, ?_⟩
  exact matched_never_direct (by decide +kernel) reached
    ⟨suffixRule, mem_cons_self, by decide +kernel⟩

/-- A claim comes and goes again before the request looks: it is dialed
directly. -/
theorem withdrawnClaim_direct : Matches [suffixRule] "web.cornus.internal" 80 ∧
      (run Proxy.step { router := { rules := [suffixRule] } }
        (waitingRun ++ [.claim { label := "web", deployment := "demo-web" },
          .unregisterAlias "web" "demo-web", .act 1 .wake, .act 1 .resolveAgain,
          .act 1 .dispatch])).map Proxy.direct = some [("web.cornus.internal", 80)] :=
  ⟨⟨suffixRule, mem_cons_self, by decide +kernel⟩, by decide +kernel⟩

end Cornus.Socks5
