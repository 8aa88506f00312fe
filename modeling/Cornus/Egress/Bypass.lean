import Cornus.Egress.Policy

/-!
# When the bypass list follows the policy

The policy is read off the rules of the spec: the first one whose pattern
matches decides.  The bypass list follows it for a destination exactly if no
rule in front of a matching rule for the cluster takes the destination away.
-/

namespace Cornus.Egress

open Lib List

theorem validRoute_text (route : Route) : validRoute route.text = some route := by
  cases route <;> decide

theorem text_of_validRoute (valid : validRoute text = some route) : route.text = text := by
  simpa using find?_some valid

theorem find_compiled (dest : Dest) (compiles : compileRules toLower index rules = .ok compiled) :
    (compiled.find? fun rule => rule.1.matches toLower dest).map (fun rule => rule.2.text) =
      (rules.find? fun rule => patternMatches toLower dest rule.pattern).map EgressRule.route := by
  induction rules generalizing index compiled with
  | nil =>
    cases compiles
    rfl
  | cons rule rules ih =>
    simp only [compileRules] at compiles
    split at compiles
    · cases compiles
    rename_i route valid
    split at compiles
    · cases compiles
    rename_i first parses
    obtain ⟨others, rest, rfl⟩ := exists_of_map_ok compiles
    have same : patternMatches toLower dest rule.pattern = first.matches toLower dest := by
      simp only [patternMatches, parses]
    rw [find?_cons, find?_cons, same]
    cases first.matches toLower dest with
    | true => simp [text_of_validRoute valid]
    | false => exact ih rest

theorem bypasses_iff : bypasses toLower spec dest = true ↔
      ∃ rule ∈ spec.rules, rule.admits toLower dest := by
  simp only [bypasses, noProxyPatterns, any_eq_true, mem_map,
    mem_filter, decide_eq_true_eq, EgressRule.admits]
  constructor
  · intro listed
    obtain ⟨pattern, ⟨rule, ⟨mem, cluster⟩, rfl⟩, hit⟩ := listed
    exact ⟨rule, mem, cluster, hit⟩
  · intro admitted
    obtain ⟨rule, mem, cluster, hit⟩ := admitted
    exact ⟨rule.pattern, ⟨rule, ⟨mem, cluster⟩, rfl⟩, hit⟩

theorem policy_cluster_iff (accepted : compile toLower compileScript spec = .ok policy)
    (noScript : trimSpace spec.script = "") (found : spec.rules.find? (fun rule =>
      patternMatches toLower dest rule.pattern) = some first) :
    policy dest = .ok .cluster ↔ first.route = Route.cluster.text := by
  rw [compile] at accepted
  split at accepted
  · cases accepted
  rename_i default valid
  rw [if_neg (not_not.mpr noScript)] at accepted
  obtain ⟨compiled, compiles, rfl⟩ := exists_of_map_ok accepted
  have decided := find_compiled dest compiles
  rw [found, Option.map_some, Option.map_eq_some_iff] at decided
  obtain ⟨rule, hit, text⟩ := decided
  simp only [routeByRules, hit, ← text]
  constructor
  · intro cluster
    rw [Except.ok.inj cluster]
  · intro same
    have routes := congrArg validRoute same
    rw [validRoute_text, validRoute_text] at routes
    rw [Option.some.inj routes]

/-- For every accepted spec without a script and every destination, the bypass
list follows the policy exactly if no matching rule is shadowed. -/
theorem bypassFollows_iff (toLower : String → String)
    (compileScript : String → Route → Option Policy) (spec : EgressSpec)
    (policy : Policy) (dest : Dest) (accepted : compile toLower compileScript spec = .ok policy)
    (noScript : trimSpace spec.script = "") :
    (bypasses toLower spec dest = true → policy dest = .ok .cluster) ↔
      NotShadowed toLower spec.rules dest := by
  rw [bypasses_iff]
  constructor
  · intro follows before early after split other hit late
    obtain ⟨rule, behind, admitted⟩ := late
    have member : rule ∈ spec.rules := by
      rw [split]
      exact mem_append_right _ (mem_cons_of_mem _ behind)
    have cluster := follows ⟨rule, member, admitted⟩
    -- The early rule matches, so the first match is at it or in front of it.
    cases found : before.find? fun rule =>
        patternMatches toLower dest rule.pattern with
    | some first =>
      have among : spec.rules.find? (fun rule =>
          patternMatches toLower dest rule.pattern) = some first := by
        rw [split, find?_append, found]
        rfl
      have named := (policy_cluster_iff accepted noScript among).mp cluster
      have matched : patternMatches toLower dest first.pattern = true := by
        simpa using find?_some found
      exact ⟨first, mem_of_find?_eq_some found, named, matched⟩
    | none =>
      have among : spec.rules.find? (fun rule =>
          patternMatches toLower dest rule.pattern) = some early := by
        rw [split, find?_append, found, find?_cons, hit]
        rfl
      exact absurd ((policy_cluster_iff accepted noScript among).mp cluster) other
  · intro visible bypassed
    obtain ⟨rule, member, admitted⟩ := bypassed
    cases found : spec.rules.find? fun rule =>
        patternMatches toLower dest rule.pattern with
    | none =>
      have missed := find?_eq_none.mp found rule member
      exact absurd admitted.2 missed
    | some first =>
      apply (policy_cluster_iff accepted noScript found).mpr
      by_contra other
      obtain ⟨hit, before, after, split, earlier⟩ := find?_eq_some_iff_append.mp found
      have late : ∃ late ∈ after, late.admits toLower dest := by
        rw [split] at member
        rcases mem_append.mp member with inFront | behind
        · exact absurd admitted.2 (by simpa using earlier rule inFront)
        rcases mem_cons.mp behind with same | later
        · exact absurd (same ▸ admitted.1) other
        · exact ⟨rule, later, admitted⟩
      obtain ⟨shadow, inFront, shadowed⟩ :=
        visible before first after split other (by simpa using hit) late
      exact absurd shadowed.2 (by simpa using earlier shadow inFront)

/-- Lower case for ASCII texts. -/
def asciiLower (text : String) : String :=
  String.ofList (text.toList.map Char.toLower)

/-- One name is denied out of a domain that bypasses. -/
def deniedName : EgressSpec where
  rules := [⟨"vault.internal", "deny"⟩, ⟨"*.internal", "cluster"⟩]
  default := "client"

theorem deniedName_follows : ∃ policy,
    compile asciiLower (fun _ _ => none) deniedName = .ok policy ∧
      (bypasses asciiLower deniedName ⟨"db.Internal.", none, 5432⟩ = true →
        policy ⟨"db.Internal.", none, 5432⟩ = .ok .cluster) := by
  refine ⟨_, rfl, (bypassFollows_iff asciiLower (fun _ _ => none) deniedName _
    ⟨"db.Internal.", none, 5432⟩ rfl (by decide +kernel)).mpr ?_⟩
  intro before early after split other hit late
  have member : early ∈ deniedName.rules := by
    rw [split]
    exact mem_append_right _ mem_cons_self
  rcases mem_cons.mp member with first | second
  · rw [first] at hit
    exact absurd hit (by decide +kernel)
  · rw [mem_singleton.mp second] at other
    exact absurd rfl other

/-- The denied name is kept off the proxy. -/
theorem deniedName_bypasses : ¬BypassFollowsPolicy asciiLower fun _ _ => none := by
  intro follows
  have cluster := follows deniedName _ ⟨"vault.internal", none, 443⟩ rfl
    (by decide) (by decide +kernel) (by decide +kernel)
  exact absurd cluster (by decide +kernel)

end Cornus.Egress
