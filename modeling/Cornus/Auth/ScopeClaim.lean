import Cornus.Auth.Authenticate

/-!
# The scope claim of another issuer's token

A map whose rules do not test the claim `scope` looks every other claim up as if
that claim were not there, so a token that only the key set of another issuer
verifies is judged by its other claims.
-/

namespace Cornus.Auth

open Lib List

/-- The claim `scope`, or one below it. -/
def namesScope (name : String) : Bool :=
  name = "scope" || "scope.".toList.isPrefixOf name.toList

section Lookup

variable {Num : Type} {name : String}

theorem intercalate_take_ne_scope (other : namesScope name = false) (count : Nat) :
    ".".intercalate ((splitOnChar '.' name).take (count + 1)) ≠ "scope" := by
  intro key
  have free : ∀ part ∈ (splitOnChar '.' name).take (count + 1), '.' ∉ part.toList := by
    intro part mem
    exact free_of_mem_splitOnChar '.' (mem_of_mem_take mem)
  have some_ : (splitOnChar '.' name).take (count + 1) ≠ [] := by
    intro none_
    rcases take_eq_nil_iff.mp none_ with zero | empty
    · cases zero
    · exact splitOnChar_ne_nil '.' name empty
  have pieces := splitOnChar_intercalate '.' free some_
  have dot : String.singleton '.' = "." := rfl
  rw [dot, key] at pieces
  have single : splitOnChar '.' "scope" = ["scope"] := by decide
  rw [single] at pieces
  have whole := intercalate_splitOnChar '.' name
  rw [dot] at whole
  cases parts : splitOnChar '.' name with
  | nil => exact splitOnChar_ne_nil '.' name parts
  | cons first rest =>
    rw [parts, take_succ_cons] at pieces
    obtain ⟨same, -⟩ := cons.inj pieces
    rw [parts, ← same] at whole
    cases rest with
    | nil =>
      simp [String.intercalate_singleton] at whole
      simp [namesScope, ← whole] at other
    | cons second rest =>
      rw [String.intercalate_cons_cons] at whole
      simp [namesScope, ← whole] at other

/-- Two claim sets that agree but for the claim `scope`. -/
def AgreeButScope (claims others : Object Num) : Prop :=
  ∀ name, name ≠ "scope" → claims.lookup name = others.lookup name

theorem lookupClaim_congr {others : Object Num} (agree : AgreeButScope claims others)
    (other : namesScope name = false) : lookupClaim claims name = lookupClaim others name := by
  have literal : name ≠ "scope" := by
    intro same
    simp [namesScope, same] at other
  rw [lookupClaim, lookupClaim, agree name literal]
  cases others.lookup name with
  | some value => rfl
  | none =>
    simp only
    split
    · rfl
    cases parts : splitOnChar '.' name with
    | nil => exact absurd parts (splitOnChar_ne_nil '.' name)
    | cons first rest =>
      simp only [length_cons, lookupPath]
      congr 1
      funext count
      have key := intercalate_take_ne_scope other count
      rw [parts] at key
      rw [agree _ key]

end Lookup

section Rules

variable {Num : Type} {rule : Rule Num} {claims others : Object Num}

theorem Rule.matches_congr (agree : AgreeButScope claims others)
    (silent : ∀ entry ∈ rule.match_, namesScope entry.1 = false) :
    rule.matches floats claims = rule.matches floats others := by
  apply Bool.eq_iff_iff.mpr
  simp only [Rule.matches, all_eq_true]
  constructor
  · intro all entry mem
    rw [← lookupClaim_congr agree (silent entry mem)]
    exact all entry mem
  · intro all entry mem
    rw [lookupClaim_congr agree (silent entry mem)]
    exact all entry mem

theorem findSome_congr {α β : Type} {f g : α → Option β} {items : List α}
    (same : ∀ item ∈ items, f item = g item) : items.findSome? f = items.findSome? g := by
  induction items with
  | nil => rfl
  | cons item items ih =>
    rw [findSome?_cons, findSome?_cons, same item mem_cons_self]
    rw [ih fun later mem => same later (mem_cons_of_mem _ mem)]

theorem firstRule_congr (agree : AgreeButScope claims others)
    (silent : ∀ rule ∈ rules, ∀ entry ∈ rule.match_, namesScope entry.1 = false) :
    firstRule floats claims rules = firstRule floats others rules := by
  rw [firstRule, firstRule]
  apply findSome_congr
  intro entry mem
  have among : entry.1 ∈ rules := fst_mem_of_mem_zipIdx mem
  simp only [Rule.matches_congr agree (silent entry.1 among)]

theorem firstRule_split (first : firstRule floats claims rules = some (index, rule)) :
    ∃ before after, rules = before ++ rule :: after ∧
      (∀ earlier ∈ before, earlier.matches floats claims = false) ∧
      rule.matches floats claims = true := by
  obtain ⟨before, entry, after, split, hit, missed⟩ := findSome?_eq_some_iff.mp first
  simp only [Option.ite_none_right_eq_some] at hit
  obtain ⟨matched, same⟩ := hit
  cases same
  refine ⟨before.map Prod.fst, after.map Prod.fst, ?_, ?_, matched⟩
  · have names := congrArg (map Prod.fst) split
    simpa using names
  · intro earlier mem
    obtain ⟨entry, among, rfl⟩ := mem_map.mp mem
    have skipped := missed entry among
    simpa using skipped

end Rules

section Tokens

variable {Num : Type} {env : Env Num}

theorem OnlyExternal.authenticate
    (only : OnlyExternal env auth request allowBasic claims) (endpoint : Endpoint) :
    ∃ subject, authenticate env auth request endpoint allowBasic =
      externalResult env auth endpoint subject claims := by
  obtain ⟨token, subject, carried, notStatic, notCaretaker, minted, operator,
    external⟩ := only.exists_token
  refine ⟨subject, ?_⟩
  have first : ¬(auth.staticToken ≠ "" ∧ token = auth.staticToken) := by
    intro same
    exact notStatic.elim same.1 fun apart => apart same.2
  have second : ¬(auth.caretakerToken ≠ "" ∧ token = auth.caretakerToken) := by
    intro same
    exact notCaretaker.elim same.1 fun apart => apart same.2
  simp only [Auth.authenticate, only.anonymous, ne_eq, not_true_eq_false,
    if_false, carried, authenticateToken, first, second, authenticateJwt,
    minted, operator, external]

theorem externalResult_ok_iff {map : ScopeMap Num} (configured : auth.scopeMap = some map) :
    (externalResult env auth endpoint subject claims).ok = true ↔ ∃ index rule access,
        firstRule env.floats claims map.rules = some (index, rule) ∧
          grant rule.scope = .ok access ∧ allows access endpoint = true := by
  simp only [externalResult, matchClaims, configured]
  cases first : firstRule env.floats claims map.rules with
  | none => simp
  | some entry =>
    obtain ⟨index, rule⟩ := entry
    simp only [Option.map_some]
    cases granted : grant rule.scope with
    | error err => simp [granted]
    | ok access =>
      simp only
      split <;> simp_all

/-- An external token's own scope claim grants nothing: tokens that agree on
their other claims are accepted alike, and by the first rule that matches. -/
theorem external_scope_irrelevant (env : Env Num) (auth : Authenticator Num)
    (map : ScopeMap Num) (configured : auth.scopeMap = some map)
    (silent : ∀ rule ∈ map.rules, ∀ entry ∈ rule.match_, namesScope entry.1 = false)
    (claims others : Object Num) (agree : AgreeButScope claims others)
    (request other : Request) (allowBasic otherBasic : Bool)
    (only : OnlyExternal env auth request allowBasic claims)
    (otherOnly : OnlyExternal env auth other otherBasic others) (endpoint : Endpoint) :
    (authenticate env auth request endpoint allowBasic).ok =
        (authenticate env auth other endpoint otherBasic).ok ∧
      ((authenticate env auth request endpoint allowBasic).ok = true →
        ∃ before rule after access, map.rules = before ++ rule :: after ∧
          (∀ earlier ∈ before, earlier.matches env.floats claims = false) ∧
          rule.matches env.floats claims = true ∧
          grant rule.scope = .ok access ∧ allows access endpoint = true) := by
  obtain ⟨subject, judged⟩ := only.authenticate endpoint
  obtain ⟨otherSubject, otherJudged⟩ := otherOnly.authenticate endpoint
  rw [judged, otherJudged]
  constructor
  · apply Bool.eq_iff_iff.mpr
    rw [externalResult_ok_iff configured, externalResult_ok_iff configured,
      firstRule_congr agree silent]
  · intro accepted
    obtain ⟨index, rule, access, first, granted, allowed⟩ :=
      (externalResult_ok_iff configured).mp accepted
    obtain ⟨before, after, split, missed, matched⟩ := firstRule_split first
    exact ⟨before, rule, after, access, split, missed, matched, granted, allowed⟩

end Tokens

/-- Node agents are caretakers; pods pull images. -/
def podMap : ScopeMap Int where
  rules := [{ scope := "caretaker", match_ := [("sub", { startsWith := "node-" })] },
    { scope := "registry:pull", match_ := [("sub", { glob := "pod-*" })] }]

/-- The claims of a pod's token. -/
def podClaims : Object Int :=
  [("sub", .str "pod-7"), ("exp", .num 200)]

/-- An issuer whose tokens are the names of pods; the token `greedy` asks for
everything. -/
def podAuth : Authenticator Int where
  jwks := some fun token =>
    if token = "plain" then some podClaims
    else if token = "greedy" then some (("scope", .str "api") :: podClaims)
    else none
  scopeMap := some podMap

/-- A pod's own `scope` claim does not change the verdict. -/
theorem greedyPod_pulls_only :
    (authenticate (documentedEnv 100) podAuth { bearer := some "plain" } .registryPull true).ok =
      (authenticate (documentedEnv 100) podAuth { basic := some "greedy" } .registryPull true).ok ∧
    (authenticate (documentedEnv 100) podAuth { bearer := some "plain" } .registryPull true).ok =
      true := by
  have agree : AgreeButScope podClaims (("scope", .str "api") :: podClaims) := by
    intro name other
    have apart : (name == "scope") = false := by simpa using other
    simp only [lookup_cons, apart]
  have silent : ∀ rule ∈ podMap.rules, ∀ entry ∈ rule.match_, namesScope entry.1 = false := by
    decide +kernel
  exact ⟨(external_scope_irrelevant (documentedEnv 100) podAuth podMap rfl silent _ _ agree
    { bearer := some "plain" } { basic := some "greedy" } true true
    ⟨rfl, "plain", "pod-7", rfl, .inl rfl, .inl rfl, rfl, rfl, rfl⟩
    ⟨rfl, "greedy", "pod-7", rfl, .inl rfl, .inl rfl, rfl, rfl, rfl⟩
    .registryPull).1, by decide +kernel⟩

end Cornus.Auth
