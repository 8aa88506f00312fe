import Cornus.Storage.CollectExact
import Cornus.Storage.ManifestRefinement

/-!
# Collection by one of several servers

Servers that share an object store each keep a list of the repositories for a
while.  A collection takes its roots from the repositories on that list, which a
push by another server does not refresh.
-/

namespace Cornus.Storage

open Lib Function

/-- The list that is still fresh names, for every marker, a repository that has
the manifest too. -/
def Listed (faults : Faults) (objects : Objects) (cached : Option (List String)) : Prop :=
  ∀ names, cached = some names → ∀ repo hex, manifestKey repo hex ∈ objects →
    isDigest (digestOf hex) = true →
    ∃ listed ∈ names, hex ∈ manifestHexes objects listed ∨
      ∃ tag ∈ tags objects listed, readTag faults objects listed tag = some (digestOf hex)

section Roots

variable {decode : Decode} {faults : Faults} {objects : Objects} {cached : Option (List String)}
  {names roots : List String} (given : reposIn faults objects cached = .ok names)
  (gathered : gatherAll (repoRoots faults objects) names = .ok roots)
include given gathered

theorem lookup_of_root
    (ended : gc decode faults objects fuel cached = some outcome) (mem : root ∈ roots)
    (parsed : blobKey root = .ok key) :
    outcome.objects.lookup key = objects.lookup key := by
  simp only [gc, given, gathered] at ended
  split at ended
  · cases ended
  · cases ended
    rfl
  · rename_i final marked
    split at ended
    · cases ended
      rfl
    · cases ended
      apply lookup_sweep_kept
      left
      have queued : root ∈ roots.reverse := List.mem_reverse.mpr mem
      have visited := (Search.mem_search_iff (search_of_mark marked) root).mpr (.of_mem queued)
      rw [keyDigest_of_blobKey parsed, mem_reachable marked (by simp)]
      exact ⟨root, visited, .inl rfl⟩

theorem rooted_iff : (∀ repo hex, manifestKey repo hex ∈ objects →
        isDigest (digestOf hex) = true → digestOf hex ∈ roots) ↔ Listed faults objects cached := by
  constructor
  · intro rooted listing same repo hex stored digest
    rw [same] at given
    cases given
    obtain ⟨listed, among, values, valued, inside⟩ :=
      (mem_gathered gathered _).mp (rooted repo hex stored digest)
    refine ⟨listed, among, ?_⟩
    rcases ((mem_repoRoots valued).mp inside).2 with ⟨other, marker, text⟩ | tag
    · left
      rw [digestOf_injective text]
      exact marker
    · exact .inr tag
  · intro listed repo hex stored digest
    cases cached with
    | none =>
      have all := mem_reposIn (by intro _ impossible; cases impossible) given
      exact (starts_of_gather all gathered).complete _ ⟨digest, .inl ⟨repo, hex, stored, rfl⟩⟩
    | some listing =>
      cases given
      obtain ⟨other, among, held⟩ := listed _ rfl repo hex stored digest
      obtain ⟨values, valued⟩ := gatherAll_ok gathered other among
      refine (mem_gathered gathered _).mpr ⟨other, among, values, valued, ?_⟩
      refine (mem_repoRoots valued).mpr ⟨digest, ?_⟩
      rcases held with marker | tag
      · exact .inl ⟨hex, marker, rfl⟩
      · exact .inr tag

theorem lookup_of_served (rooted : ∀ repo hex, manifestKey repo hex ∈ objects →
      isDigest (digestOf hex) = true → digestOf hex ∈ roots)
    (ended : gc decode faults objects fuel cached = some outcome) (served : Served objects digest)
    (parsed : blobKey digest = .ok key) : outcome.objects.lookup key = objects.lookup key := by
  obtain ⟨isDigest, repo, hex, stored, rfl⟩ := served.marked
  exact lookup_of_root given gathered ended (rooted repo hex stored isDigest) parsed

/-- A collection that gets to its roots takes every marker in the store for one,
and keeps what `GetManifest` reads, exactly when the list is complete. -/
theorem gc_rootsCurrent_iff : ((∀ repo hex, manifestKey repo hex ∈ objects →
        isDigest (digestOf hex) = true → digestOf hex ∈ roots) ∧
      ∀ fuel outcome digest key, gc decode faults objects fuel cached = some outcome →
        Served objects digest → blobKey digest = .ok key →
          outcome.objects.lookup key = objects.lookup key) ↔ Listed faults objects cached := by
  rw [← rooted_iff given gathered]
  constructor
  · exact fun current => current.1
  · intro rooted
    refine ⟨rooted, ?_⟩
    intro fuel outcome digest key ended served parsed
    exact lookup_of_served given gathered rooted ended served parsed

end Roots

/-- The repository `app` after its first push. -/
def firstPush : Objects :=
  putManifest knownDigester {} "app" "v1" "image" "one"

theorem firstPush_rootsCurrent : ∃ roots, gatherAll (repoRoots {} firstPush) ["app"] = .ok roots ∧
      ((∀ repo hex, manifestKey repo hex ∈ firstPush →
          isDigest (digestOf hex) = true → digestOf hex ∈ roots) ∧
        ∀ fuel outcome digest key, gc (fun _ => none) {} firstPush fuel none = some outcome →
          Served firstPush digest → blobKey digest = .ok key →
            outcome.objects.lookup key = firstPush.lookup key) := by
  have given : reposIn {} firstPush none = .ok ["app"] := by
    decide +kernel
  have gathered : gatherAll (repoRoots {} firstPush) ["app"] =
      .ok (List.replicate 2 (digestOf (knownDigester.hex "one"))) := by
    decide +kernel
  refine ⟨_, gathered, (gc_rootsCurrent_iff given gathered).mpr ?_⟩
  intro names impossible
  cases impossible

/-- A server that listed the empty store before the push collects the blob. -/
theorem staleList_frees : reposIn {} {} none = .ok [] ∧ getManifest firstPush "app" "v1" =
        .ok ⟨"one", digestOf (knownDigester.hex "one"), "image"⟩ ∧
      (gc (fun _ => none) {} firstPush 1 (some [])).map (fun outcome =>
        (outcome.freed, getManifest outcome.objects "app" "v1")) = some (1, .error .notFound) := by
  decide +kernel

/-- The store that servers share, and the list that each of them still takes for
fresh. -/
structure Servers where
  objects : Objects := ∅
  cached : Nat → Option (List String) := fun _ => none

inductive ServerEvent where
  /-- A server's call, from its beginning to its end. -/
  | call (server : Nat) (call : Call)
  /-- The lifetime of a server's list passes. -/
  | expires (server : Nat)

section Servers

variable (sha : Digester)

/-- A write drops the list of its own server only. -/
def serversStep (servers : Servers) : ServerEvent → Option Servers
  | .call server (.put repo ref mediaType content) =>
    some ⟨putManifest sha servers.objects repo ref mediaType content,
      update servers.cached server none⟩
  | .call server (.delete repo digest) =>
    match deleteManifest servers.objects repo digest with
    | .ok rest => some ⟨rest, update servers.cached server none⟩
    | .error _ => some servers
  | .call server .repos =>
    let list := (servers.cached server).getD (repos servers.objects)
    some { servers with cached := update servers.cached server (some list) }
  | .call _ _ => some servers
  | .expires server => some { servers with cached := update servers.cached server none }

/-- Another server writes only while this one has no list. -/
def Unlisted (server : Nat) (servers : Servers) : ServerEvent → Prop
  | .call other (.put _ _ _ _) | .call other (.delete _ _) =>
    other = server ∨ servers.cached server = none
  | _ => True

variable {sha} {server : Nat} {servers : Servers}

theorem listed_of_accurate (accurate : Accurate objects cached) : Listed faults objects cached := by
  intro names same repo hex stored digest
  have plain : Plain hex := plain_of_isDigest digest
  exact ⟨sanitizeRepo repo, (accurate names same _).mpr (mem_repos_of_marker plain stored),
    .inl ((mem_manifestHexes plain).mpr stored)⟩

theorem accurate_update {cached : Nat → Option (List String)} {other : Nat}
    (unlisted : other = server ∨ cached server = none) :
    Accurate objects (update cached other none server) := by
  intro names same
  rcases unlisted with rfl | none_
  · rw [update_self] at same
    cases same
  · rw [update_apply, none_, ite_self] at same
    cases same

theorem Unlisted.accurate {next : Servers}
    (accurate : Accurate servers.objects (servers.cached server))
    (unlisted : Unlisted server servers event) (taken : serversStep sha servers event = some next) :
    Accurate next.objects (next.cached server) := by
  cases event with
  | expires other =>
    cases taken
    by_cases own : other = server
    · exact accurate_update (.inl own)
    · simpa only [update_of_ne (Ne.symm own)] using accurate
  | call other call =>
    cases call with
    | put =>
      cases taken
      exact accurate_update unlisted
    | delete repo digest =>
      rw [serversStep] at taken
      split at taken <;> cases taken
      · exact accurate_update unlisted
      · exact accurate
    | get | tags =>
      cases taken
      exact accurate
    | repos =>
      cases taken
      intro names same
      by_cases own : server = other
      · subst own
        simp only [update_self] at same
        cases listed : servers.cached server with
        | none =>
          rw [listed] at same
          cases same
          exact fun repo => Iff.rfl
        | some list =>
          rw [listed] at same
          cases same
          exact accurate _ listed
      · exact accurate names ((update_of_ne own _ _).symm.trans same)

/-- In every run of servers of which the others write only while this one has no
list, a collection in this one keeps what `GetManifest` reads. -/
theorem gc_keeps_of_unlisted (along : Along (serversStep sha) (Unlisted server) {} events)
    (reached : run (serversStep sha) {} events = some servers)
    (ended : gc decode faults servers.objects fuel (servers.cached server) = some outcome)
    (served : Served servers.objects digest) (parsed : blobKey digest = .ok key) :
    outcome.objects.lookup key = servers.objects.lookup key := by
  have accurate : Accurate servers.objects (servers.cached server) := by
    apply run_invariant _ (fun names impossible => nomatch impossible) along reached
    intro before event next holds unlisted taken
    exact unlisted.accurate holds taken
  cases given : reposIn faults servers.objects (servers.cached server) with
  | error err =>
    simp only [gc, given] at ended
    cases ended
    rfl
  | ok names =>
    cases gathered : gatherAll (repoRoots faults servers.objects) names with
    | error err =>
      simp only [gc, given, gathered] at ended
      cases ended
      rfl
    | ok roots =>
      have rooted := (rooted_iff given gathered).mpr (listed_of_accurate accurate)
      exact lookup_of_served given gathered rooted ended served parsed

end Servers

end Cornus.Storage
