import Cornus.Auth.ScopeMap

/-!
# Authentication of a request

The chain of verifiers of `authenticate`.  A token that this installation minted
or that an operator's key signed is judged by its own scope; a token of another
issuer is judged by the scope map alone.

What the token library does is a parameter: a verifier gives the payload of a token
that it accepts, the payload is decoded into the claims, and these are checked
against what is expected of them.
-/

namespace Cornus.Auth

open Lib

/-- The registered claims of a token. -/
structure Registered where
  (subject issuer : String := "")
  audience : List String := []
  (expiry notBefore issuedAt : Option Int := none)
  deriving DecidableEq

/-- The claims a token is decoded into; a missing scope is empty. -/
structure Claims extends Registered where
  scope : String := ""
  deriving DecidableEq

/-- What the library is told to expect; an empty issuer or audience is not checked. -/
structure Expected where
  issuer : String := ""
  anyAudience : List String := []

variable (Num : Type)

/-- Parsing a token, choosing its key and checking its signature. -/
abbrev Verifier := String → Option (Object Num)

/-- What is not this program's: the clock, the numbers, the decoding of a payload
and the check of its claims at the present time. -/
structure Env where
  now : Int
  floats : Floats Num
  decodeClaims : Object Num → Option Claims
  validateWithLeeway : Claims → Expected → Bool

/-- How the lookup and the check of a peer's token end. -/
inductive PeerAnswer where
  | lookupFailed
  | unverified
  | verified (subject scope : String)

/-- `Authenticator`, with its verifiers. -/
structure Authenticator where
  (staticToken caretakerToken issuer audience : String := "")
  (internal sshJwt exchangeJwt : Option (Verifier Num) := none)
  jwt : List (Verifier Num) := []
  jwks : Option (Verifier Num) := none
  scopeMap : Option (ScopeMap Num) := none
  peer : Option (String → PeerAnswer) := none

/-- The parts of a request that carry a credential: the name in a verified
client certificate, the bearer token and the password of HTTP Basic. -/
structure Request where
  identity : String := ""
  (bearer basic : Option String := none)

/-- Why a credential that verified was refused. -/
inductive Refusal where
  | caretakerToken
  | grant (err : GrantError)
  | scope (access : Access) (endpoint : Endpoint)
  | noRule
  | noMap
  | rule (rule : RuleLabel) (access : Access) (endpoint : Endpoint)
  deriving DecidableEq

/-- What `authenticate` returns. -/
structure Verdict where
  subject : String := ""
  reason : Option Refusal := none
  internal : Bool := false
  ok : Bool
  deriving DecidableEq

/-- The verdict without a reason. -/
def refused : Verdict := { ok := false }

section Verify

variable {Num : Type} (env : Env Num)

/-- A token without an expiry would pass the library's check for ever. -/
def validClaimsFor (claims : Claims) (issuer audience : String) : Bool :=
  claims.expiry.isSome && env.validateWithLeeway claims
    { issuer, anyAudience := if audience ≠ "" then [audience] else [] }

variable (verifier : Verifier Num) (token issuer audience : String)

/-- The claims and the payload of a token that verifies and holds now. -/
def verifyClaims : Option (Claims × Object Num) :=
  match verifier token with
  | none => none
  | some payload =>
    match env.decodeClaims payload with
    | none => none
    | some claims =>
      if validClaimsFor env claims issuer audience then
        some (claims, payload)
      else none

/-- The subject and the scope of a token of the server's own. -/
def verifyFixedJwt : Option (String × String) :=
  (verifyClaims env verifier token issuer audience).map fun (claims, _) =>
    (claims.subject, claims.scope)

/-- `verifyJWT` and `verifyJWKS`, which differ in the choice of the key. -/
def verifyExternal (auth : Authenticator Num) (verifier : Verifier Num)
    (token : String) : Option (String × Object Num) :=
  (verifyClaims env verifier token auth.issuer auth.audience).map
    fun (claims, payload) => (claims.subject, payload)

/-- A claim of text; other values count as absent. -/
def claimString (claims : Object Num) (name : String) : String :=
  match claims.lookup name with
  | some (.str text) => text
  | _ => ""

end Verify

def internalIssuer : String := "cornus:internal"
def internalAudience : String := "cornus:internal"
def sshKeyIssuer : String := "cornus:ssh-key"
def sshKeyAudience : String := "cornus:ssh-key"
def exchangeIssuer : String := "cornus:exchange"
def exchangeAudience : String := "cornus:exchange"

variable {Num : Type} (env : Env Num) (auth : Authenticator Num) (endpoint : Endpoint)

/-- A token of the server's own reaches what its scope grants. -/
def scopedResult (subject scope : String) (internal : Bool) : Verdict :=
  match grant scope with
  | .error err => { reason := some (.grant err), ok := false }
  | .ok access =>
    if allows access endpoint then { subject, internal, ok := true }
    else { reason := some (.scope access endpoint), ok := false }

/-- A token of another issuer reaches what the first rule that matches grants. -/
def externalResult (subject : String) (claims : Object Num) : Verdict :=
  match matchClaims env.floats auth.scopeMap claims with
  | none =>
    { reason := some (if auth.scopeMap.isNone then .noMap else .noRule)
      ok := false }
  | some (scope, rule) =>
    match grant scope with
    | .error err => { reason := some (.grant err), ok := false }
    | .ok access =>
      if allows access endpoint then { subject, ok := true }
      else { reason := some (.rule rule access endpoint), ok := false }

variable (request : Request) (allowBasic : Bool)

/-- The bearer token, or the password of Basic where that is allowed. -/
def requestToken : Option String :=
  match request.bearer with
  | some token => some token
  | none =>
    if allowBasic then request.basic.filter fun password => password ≠ ""
    else none

variable (token : String)

/-- The verifiers of tokens that this installation mints: whether the token is
internal, its subject and its scope. -/
def verifyMinted : Option (Bool × String × String) :=
  (auth.internal.bind fun verifier =>
      (verifyFixedJwt env verifier token internalIssuer internalAudience).map
        fun result => (true, result)) <|>
    (auth.sshJwt.bind fun verifier =>
      (verifyFixedJwt env verifier token sshKeyIssuer sshKeyAudience).map
        fun result => (false, result)) <|>
    (auth.exchangeJwt.bind fun verifier =>
      (verifyFixedJwt env verifier token exchangeIssuer exchangeAudience).map
        fun result => (false, result))

/-- The first operator verifier that takes the token. -/
def verifyOperator : Option (String × Object Num) :=
  auth.jwt.findSome? fun verifier => verifyExternal env auth verifier token

/-- The token against the key set of the issuer. -/
def verifyJwks : Option (String × Object Num) :=
  auth.jwks.bind fun verifier => verifyExternal env auth verifier token

/-- The part of `authenticate` behind the static tokens. -/
def authenticateJwt : Verdict :=
  match verifyMinted env auth token with
  | some (internal, subject, scope) =>
    scopedResult endpoint subject scope internal
  | none =>
    match verifyOperator env auth token with
    | some (subject, claims) =>
      let scope := claimString claims "scope"
      match grant scope with
      | .ok _ => scopedResult endpoint subject scope false
      | .error _ => externalResult env auth endpoint subject claims
    | none =>
      match verifyJwks env auth token with
      | some (subject, claims) =>
        externalResult env auth endpoint subject claims
      | none =>
        if endpoint = .peerForward then
          match auth.peer with
          | none => refused
          | some peer =>
            match peer token with
            | .verified subject scope =>
              scopedResult endpoint subject scope false
            | _ => refused
        else refused

/-- The part of `authenticate` behind the choice of the token. -/
def authenticateToken : Verdict :=
  if auth.staticToken ≠ "" ∧ token = auth.staticToken then { ok := true }
  else if auth.caretakerToken ≠ "" ∧ token = auth.caretakerToken then
    if endpoint = .caretaker then { ok := true }
    else { reason := some .caretakerToken, ok := false }
  else authenticateJwt env auth endpoint token

/-- `Authenticate`, in the order of the source's checks. -/
def authenticate (endpoint : Endpoint) (allowBasic : Bool) : Verdict :=
  if request.identity ≠ "" then { subject := request.identity, ok := true }
  else
    match requestToken request allowBasic with
    | none => refused
    | some token => authenticateToken env auth endpoint token

/-- The request carries a token that no verifier but the one of another issuer's
key set accepts. -/
structure OnlyExternal (claims : Object Num) : Prop where
  anonymous : request.identity = ""
  exists_token : ∃ token subject, requestToken request allowBasic = some token ∧
      (auth.staticToken = "" ∨ token ≠ auth.staticToken) ∧
      (auth.caretakerToken = "" ∨ token ≠ auth.caretakerToken) ∧
      verifyMinted env auth token = none ∧
      verifyOperator env auth token = none ∧ verifyJwks env auth token = some (subject, claims)

/-- The library as its documentation describes it, on claims that are texts and
whole numbers, with a leeway of a minute. -/
def documentedEnv (now : Int) : Env Int where
  now
  floats := ⟨fun some_ other => some_ = other, fun _ => none⟩
  decodeClaims payload :=
    let time := fun name => match payload.lookup name with
      | some (.num time) => some time
      | _ => none
    match payload.lookup "scope" with
    | none | some .null | some (.str _) => some
      { subject := claimString payload "sub", issuer := claimString payload "iss"
        audience := [claimString payload "aud"], expiry := time "exp", notBefore := time "nbf"
        issuedAt := time "iat", scope := claimString payload "scope" }
    | _ => none
  validateWithLeeway claims expected :=
    (expected.issuer = "" || claims.issuer = expected.issuer) &&
      (expected.anyAudience = [] || expected.anyAudience.any claims.audience.contains) &&
      claims.notBefore.all (fun time => time ≤ now + 60) &&
      claims.expiry.all (fun time => now - 60 ≤ time) &&
      claims.issuedAt.all (fun time => time ≤ now + 60)

end Cornus.Auth
