import Cornus.Lib.Strings

/-!
# Scopes and what they reach

The scopes of a token, the access they confer and the access matrix.  Access is
an allowlist: a scope that names nothing known confers nothing.
-/

namespace Cornus.Auth

/-- The access that a scope stands for. -/
inductive Access where
  | none
  | caretaker
  | peer
  | registryPull
  | registryPush
  | full
  deriving DecidableEq

/-- The kinds of endpoint a request may reach. -/
inductive Endpoint where
  | unknown
  | api
  | registryPull
  | registryPush
  | caretaker
  | peerForward
  deriving DecidableEq

/-- `Allows`. -/
def allows (access : Access) (endpoint : Endpoint) : Bool :=
  match access with
  | .full =>
    [Endpoint.api, .registryPull, .registryPush, .caretaker, .peerForward].contains endpoint
  | .registryPush => endpoint = .registryPull || endpoint = .registryPush
  | .registryPull => endpoint = .registryPull
  | .caretaker => endpoint = .caretaker
  | .peer => endpoint = .peerForward
  | .none => false

/-- The endpoints that `Contains` goes through. -/
def allEndpoints : List Endpoint :=
  [.api, .registryPull, .registryPush, .caretaker, .peerForward]

/-- Whatever the inner access allows, the outer one does. -/
def contains (outer inner : Access) : Bool :=
  allEndpoints.all fun endpoint =>
    !(allows inner endpoint && !allows outer endpoint)

theorem contains_iff {inner} : contains outer inner = true ↔
      ∀ endpoint, allows inner endpoint = true → allows outer endpoint = true := by
  constructor
  · intro within endpoint reached
    cases outer <;> cases inner <;> cases endpoint <;> first
        | exact absurd within (by decide)
        | exact absurd reached (by decide)
        | rfl
  · intro within
    simp only [contains, List.all_eq_true, Bool.not_eq_true',
      Bool.and_eq_false_iff, Bool.not_eq_false']
    intro endpoint _
    cases reached : allows inner endpoint with
    | true => exact .inr (within endpoint reached)
    | false => exact .inl rfl

/-- A scope that grants nothing. -/
inductive GrantError where
  | missing
  | unknown (scope : String)
  deriving DecidableEq

/-- `Grant`: the access of a scope, a list of names. -/
def grant (scope : String) : Except GrantError Access :=
  let names := fields scope
  if names = [] then .error .missing
  else if "api" ∈ names then .ok .full
  else if "registry:push" ∈ names then .ok .registryPush
  else if "registry:pull" ∈ names then .ok .registryPull
  else if "caretaker" ∈ names then .ok .caretaker
  else if "peer" ∈ names then .ok .peer
  else .error (.unknown scope)

/-- The scope grants an access that allows the endpoint. -/
def reaches (scope : String) (endpoint : Endpoint) : Bool :=
  match grant scope with
  | .ok access => allows access endpoint
  | .error _ => false

end Cornus.Auth
