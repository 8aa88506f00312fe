import Cornus.Lib.Attempt
import Cornus.Lib.Glob
import Cornus.Lib.NetAddress

/-!
# The egress policy and the bypass list

`Compile` makes a policy of an ordered list of rules, of which the first that
matches a destination decides; `NoProxyPatterns` lists the patterns of the rules
that lead to the cluster, for `NO_PROXY`.  The list has no order: a destination
that an earlier rule denies or relays is on it as soon as any later rule for the
cluster matches it too.

`strings.ToLower` and the script evaluator are parameters.
-/

namespace Cornus.Egress

open Lib

/-- The routes of a destination. -/
inductive Route where
  | client
  | gateway
  | cluster
  | deny
  deriving DecidableEq

/-- The text of a route in a spec. -/
def Route.text : Route → String
  | .client => "client"
  | .gateway => "gateway"
  | .cluster => "cluster"
  | .deny => "deny"

/-- The route that a text names. -/
def validRoute (text : String) : Option Route :=
  [Route.client, .gateway, .cluster, .deny].find? fun route => route.text = text

/-- A destination: a host name or an address, and a port. -/
structure Dest where
  host : String := ""
  ip : Option Ip := none
  port : Int

/-- A rule as it is written. -/
structure EgressRule where
  pattern : String
  route : String

/-- The rules, the script and the default route. -/
structure EgressSpec where
  rules : List EgressRule := []
  script : String := ""
  default : String := ""

/-- The errors of `compileRule`. -/
inductive PatternError where
  | empty
  | unterminated (pattern : String)
  | unexpected (rest pattern : String)
  | port (port pattern : String)
  | cidr (host : String)
  | host (host : String)
  deriving DecidableEq

/-- The errors of `Compile`. -/
inductive CompileError where
  | default (route : String)
  | route (index : Nat) (pattern route : String)
  | rule (index : Nat) (err : PatternError)
  | script
  deriving DecidableEq

/-- What a pattern says of the host. -/
inductive HostPart where
  | cidr (net : IpNet)
  | ip (ip : Ip)
  | glob (pattern : List Char)
  deriving DecidableEq

/-- A compiled pattern; port 0 is any port. -/
structure CompiledRule where
  host : HostPart
  port : Int := 0
  deriving DecidableEq

/-- The host and the port of a pattern. -/
def splitPattern (pattern : String) : Except PatternError (String × String) :=
  match pattern.toList with
  | '[' :: inside =>
    if ']' ∈ inside then
      let host := String.ofList (inside.takeWhile (· != ']'))
      match (inside.dropWhile (· != ']')).drop 1 with
      | [] => .ok (host, "")
      | ':' :: port => .ok (host, String.ofList port)
      | rest => .error (.unexpected (String.ofList rest) pattern)
    else .error (.unterminated pattern)
  | chars =>
    if chars.count ':' = 1 then
      .ok (String.ofList (chars.takeWhile (· != ':')),
        String.ofList ((chars.dropWhile (· != ':')).drop 1))
    else .ok (pattern, "")

variable (toLower : String → String)

/-- A range, an address or a glob. -/
def compileHost (host : String) : Except PatternError HostPart :=
  if '/' ∈ host.toList then
    match IpNet.parseCidr host with
    | none => .error (.cidr host)
    | some net => .ok (.cidr net)
  else
    match Ip.parse host with
    | some ip => .ok (.ip ip)
    | none =>
      let glob := (toLower host).toList
      match Glob.pathMatch glob [] with
      | none => .error (.host host)
      | some _ => .ok (.glob glob)

/-- `compileRule`. -/
def compileRule (pattern : String) : Except PatternError CompiledRule := do
  let pattern := trimSpace pattern
  if pattern = "" then throw .empty
  let (host, port) ← splitPattern pattern
  let port ←
    if port = "" then pure 0
    else
      match Ip.atoi port with
      | some number =>
        if number < 1 ∨ 65535 < number then throw (.port port pattern)
        else pure number
      | none => throw (.port port pattern)
  let host ← compileHost toLower host
  return { host, port }

/-- `matches`. -/
def CompiledRule.matches (rule : CompiledRule) (dest : Dest) : Bool :=
  if rule.port ≠ 0 ∧ rule.port ≠ dest.port then false
  else
    match rule.host with
    | .cidr net =>
      dest.ip.any net.contains || (Ip.parse dest.host).any net.contains
    | .ip ip => dest.ip.any ip.same || (Ip.parse dest.host).any ip.same
    | .glob pattern =>
      let host := dest.host.toList
      let host := if host.getLast? = some '.' then host.dropLast else host
      let host := toLower (String.ofList host)
      let host :=
        match dest.ip with
        | some ip => if host = "" then ip.text else host
        | none => host
      Glob.pathMatch pattern host.toList == some true

/-- The rules in order, up to the first error. -/
def compileRules (index : Nat) : List EgressRule → Except CompileError (List (CompiledRule × Route))
  | [] => .ok []
  | rule :: rules =>
    match validRoute rule.route with
    | none => .error (.route index rule.pattern rule.route)
    | some route =>
      match compileRule toLower rule.pattern with
      | .error err => .error (.rule index err)
      | .ok compiled =>
        (compileRules (index + 1) rules).map ((compiled, route) :: ·)

/-- The first rule that matches decides. -/
def routeByRules (rules : List (CompiledRule × Route)) (default : Route) (dest : Dest) : Route :=
  match rules.find? fun rule => rule.1.matches toLower dest with
  | some rule => rule.2
  | none => default

/-- The route of each destination; a script may fail. -/
abbrev Policy := Dest → Except Unit Route

variable (compileScript : String → Route → Option Policy) (spec : EgressSpec)

/-- `Compile`. -/
def compile : Except CompileError Policy :=
  match validRoute (if spec.default = "" then "cluster" else spec.default) with
  | none => .error (.default spec.default)
  | some default =>
    if trimSpace spec.script ≠ "" then
      match compileScript spec.script default with
      | none => .error .script
      | some policy => .ok policy
    else
      (compileRules toLower 0 spec.rules).map fun rules dest =>
        .ok (routeByRules toLower rules default dest)

/-- The patterns that bypass the proxy. -/
def noProxyPatterns : List String :=
  (spec.rules.filter fun rule => rule.route = Route.cluster.text).map EgressRule.pattern

variable (dest : Dest)

/-- The pattern compiles and matches the destination. -/
def patternMatches (pattern : String) : Bool :=
  match compileRule toLower pattern with
  | .ok rule => rule.matches toLower dest
  | .error _ => false

/-- The bypass list keeps the destination off the proxy. -/
def bypasses : Bool :=
  (noProxyPatterns spec).any (patternMatches toLower dest)

/-- A destination that bypasses the proxy is one the policy sends to the
cluster. -/
def BypassFollowsPolicy : Prop :=
  ∀ spec policy dest, compile toLower compileScript spec = .ok policy →
    spec.rules ≠ [] → trimSpace spec.script = "" →
    bypasses toLower spec dest = true → policy dest = .ok .cluster

/-- The rule lets the destination past the proxy. -/
def EgressRule.admits (rule : EgressRule) : Prop :=
  rule.route = Route.cluster.text ∧ patternMatches toLower dest rule.pattern = true

/-- No rule with another route that matches the destination stands in front of
one for the cluster that matches it too, unless one for the cluster stands in
front of both. -/
def NotShadowed (rules : List EgressRule) (dest : Dest) : Prop :=
  ∀ before early after, rules = before ++ early :: after →
    early.route ≠ Route.cluster.text →
    patternMatches toLower dest early.pattern = true →
    (∃ late ∈ after, late.admits toLower dest) → ∃ first ∈ before, first.admits toLower dest

end Cornus.Egress
