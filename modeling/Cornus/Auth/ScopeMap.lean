import Cornus.Auth.Scopes
import Cornus.Lib.Glob

/-!
# The scope map

An ordered list of rules maps the claims of a token of another issuer to a
scope.  A rule tests claims by name: by the literal name first, and then by a
path into nested claims in which every step takes the longest key that leads on.

The numbers of the claims are those of a type `Num`, with the comparison of
floating point numbers and the parser that reads one from a text.
-/

namespace Cornus.Auth

open Lib

/-- A JSON value; the numbers are a parameter. -/
inductive Value (Num : Type) where
  | null
  | bool (value : Bool)
  | num (value : Num)
  | str (value : String)
  | arr (items : List (Value Num))
  | obj (members : List (String × Value Num))

variable (Num : Type)

/-- The members of a JSON object, in order. -/
abbrev Object := List (String × Value Num)

/-- `float64`. -/
structure Floats where
  same : Num → Num → Bool
  parse : String → Option Num

/-- What is asked of one claim. -/
structure Matcher where
  equals : Option (Value Num) := none
  (startsWith endsWith glob : String := "")
  anyOf : List String := []
  contains : String := ""

/-- A rule grants its scope where every claim it names matches. -/
structure Rule where
  name : String := ""
  scope : String
  match_ : List (String × Matcher Num)

/-- `ScopeMap`. -/
structure ScopeMap where
  rules : List (Rule Num)

section Lookup

variable {Num : Type}

/-- `lookupPath`; the fuel is the number of parts. -/
def lookupPath : Nat → Value Num → List String → Option (Value Num)
  | _, value, [] => some value
  | 0, _, _ => none
  | fuel + 1, .obj members, parts =>
    (List.range parts.length).reverse.findSome? fun count =>
      (members.lookup (".".intercalate (parts.take (count + 1)))).bind
        fun value => lookupPath fuel value (parts.drop (count + 1))
  | _, _, _ => none

/-- A claim by its full name, else by the path that the dots of the name spell. -/
def lookupClaim (claims : Object Num) (name : String) : Option (Value Num) :=
  match claims.lookup name with
  | some value => some value
  | none =>
    let parts := splitOnChar '.' name
    if parts.length = 1 then none
    else lookupPath parts.length (.obj claims) parts

end Lookup

section Matching

variable {Num : Type} (floats : Floats Num)

/-- A number, or a text that parses as one. -/
def toFloat : Value Num → Option Num
  | .num value => some value
  | .str text => floats.parse text
  | _ => none

/-- A text matches that text only; a number also a text that parses as it. -/
def equalValues : Value Num → Value Num → Bool
  | .str want, .str got => want = got
  | .str _, _ => false
  | .bool want, .bool got => want = got
  | .bool _, _ => false
  | want, got =>
    match toFloat floats want, toFloat floats got with
    | some wanted, some gotten => floats.same wanted gotten
    | _, _ => false

/-- An array holds the text, or a text has it among its fields. -/
def containsValue (value : Value Num) (want : String) : Bool :=
  match value with
  | .arr items =>
    items.any fun item =>
      match item with
      | .str text => text = want
      | _ => false
  | .str text => (fields text).contains want
  | _ => false

/-- A test that only texts can pass. -/
def onText (test : String → Bool) : Value Num → Bool
  | .str text => test text
  | _ => false

/-- The first field that is set decides. -/
def Matcher.matches (matcher : Matcher Num) (value : Value Num) : Bool :=
  match matcher.equals with
  | some want => equalValues floats want value
  | none =>
    if matcher.startsWith ≠ "" then
      onText (fun text =>
        matcher.startsWith.toList.isPrefixOf text.toList) value
    else if matcher.endsWith ≠ "" then
      onText (fun text =>
        matcher.endsWith.toList.isSuffixOf text.toList) value
    else if matcher.glob ≠ "" then
      onText (fun text =>
        Glob.pathMatch matcher.glob.toList text.toList == some true) value
    else if matcher.anyOf ≠ [] then
      onText (fun text => matcher.anyOf.contains text) value
    else if matcher.contains ≠ "" then containsValue value matcher.contains
    else false

/-- Every claim the rule names is present and matches. -/
def Rule.matches (rule : Rule Num) (claims : Object Num) : Bool :=
  rule.match_.all fun entry =>
    (lookupClaim claims entry.1).any (entry.2.matches floats)

/-- The first rule that matches, with its place. -/
def firstRule (claims : Object Num) (rules : List (Rule Num)) : Option (Nat × Rule Num) :=
  rules.zipIdx.findSome? fun (rule, index) =>
    if rule.matches floats claims then some (index, rule) else none

/-- How a rule is named in a message. -/
inductive RuleLabel where
  | named (name : String)
  | numbered (number : Nat)
  deriving DecidableEq

/-- The rule's name, or its number from 1 on. -/
def ruleLabel (rule : Rule Num) (index : Nat) : RuleLabel :=
  if rule.name ≠ "" then .named rule.name else .numbered (index + 1)

/-- `Match`, on a map that may be missing; `none` is `ErrNoMatch`. -/
def matchClaims (map : Option (ScopeMap Num)) (claims : Object Num) : Option (String × RuleLabel) :=
  match map with
  | none => none
  | some map =>
    (firstRule floats claims map.rules).map fun (index, rule) =>
      (rule.scope, ruleLabel rule index)

end Matching

end Cornus.Auth
