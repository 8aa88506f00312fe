import Cornus.Compose.UserNet
import Cornus.Lib.Attempt

/-!
# Names of peers on several networks

A service resolves a name that peers carry on several of its networks to the
address on the network it lists first, not on the one whose name comes first.
-/

namespace Cornus.Compose

open List

section Fold

variable {Item Value : Type}

theorem lookup_foldl_or (keeps : ∀ records item,
      (step records item).lookup name = (records.lookup name).or (gives item))
    (records : Dict Value) (items : List Item) : (items.foldl step records).lookup name =
      (records.lookup name).or (items.findSome? gives) := by
  induction items generalizing records with
  | nil => simp
  | cons item items ih =>
    rw [foldl_cons, ih, keeps, Option.or_assoc, findSome?_cons]
    cases gives item <;> rfl

end Fold

variable (members : List UserNetMember) (allocations : List (String × Option Allocation))
  (name net : String)

/-- The address that the first peer on `net` with the given name has there. -/
def namedOn : Option String :=
  (allocations.lookup net).join.bind fun alloc =>
    (members.filter fun member => member.att.name = net).findSome? fun peer =>
      if name ∈ peer.att.aliases then some ((alloc.table.lookup peer.service).getD "") else none

theorem lookup_memberRecords (table records : Dict String) (peer : UserNetMember) :
    (memberRecords table records peer).lookup name = (records.lookup name).or
      (if name ∈ peer.att.aliases then some ((table.lookup peer.service).getD "") else none) := by
  let address := (table.lookup peer.service).getD ""
  have keeps : ∀ (records : Dict String) (given : String),
      (if (records.lookup given).isSome then records else records.put given address).lookup name =
        (records.lookup name).or (if given = name then some address else none) := by
    intro records given
    by_cases same : given = name
    · subst same
      cases held : records.lookup given <;> simp [held, Dict.put]
    · split <;> simp [Ne.symm same, Dict.put]
  rw [memberRecords, lookup_foldl_or keeps]
  congr 1
  induction peer.att.aliases with
  | nil => rfl
  | cons given aliases ih =>
    rw [findSome?_cons, ih]
    by_cases same : given = name
    · simp [same, address]
    · simp [same, Ne.symm same]

theorem lookup_peerRecords (networks : List Api.NetworkAttachment) :
    (peerRecords members allocations networks).lookup name =
      networks.findSome? fun att => namedOn members allocations name att.name := by
  refine (@lookup_foldl_or _ _ _ name (fun att => namedOn members allocations name att.name)
    (fun records att => ?_) ∅ networks).trans rfl
  rw [namedOn]
  cases (allocations.lookup att.name).join with
  | none => simp
  | some alloc => exact lookup_foldl_or (lookup_memberRecords name alloc.table) _ _

variable (plans : Dict ServicePlan)

/-- The members of all networks of the plans. -/
def planMembers : List UserNetMember :=
  netMembers ((plans.mapVals fun _ plan => plan.netFacts).mapVals fun _ own =>
    { own with networks := own.networks.map dropPin })

/-- The record that the plan of a service carries for a name. -/
def recordFor (service : String) : Option String :=
  ((plans.lookup service).bind fun plan => plan.spec.dns).bind fun dns =>
    dns.records.lookup name

variable {members allocations plans name net} {lib : Runtime} {result : Dict ServicePlan}
  {service : String} {plan : ServicePlan}

theorem ServicePlan.dns_setNet (unproxied : plan.spec.proxy = none) {result : NetResult}
    (some_ : result.records.entries ≠ []) : (plan.setNet (some result)).spec.dns =
      some { records := result.records, requireUserNet := true } := by
  simp [ServicePlan.setNet, unproxied, some_]

theorem recordFor_eq (allocated : allocateAll lib (planMembers plans) = .ok allocations)
    (applied : applyUserNetIPs lib plans = .ok result)
    (has : plans.lookup service = some plan) (unproxied : plan.spec.proxy = none)
    (listed : net ∈ plan.spec.networks.map (·.name))
    (named : (namedOn (planMembers plans) allocations name net).isSome) :
    recordFor name result service = (plan.spec.networks.map (·.name)).findSome?
      (namedOn (planMembers plans) allocations name) := by
  obtain ⟨results, computed, done⟩ := exists_of_bind_ok applied
  obtain ⟨given, again, finished⟩ := exists_of_bind_ok computed
  obtain rfl : allocations = given := Except.ok.inj (allocated.symm.trans again)
  cases done
  cases finished
  have sameName : ∀ att, (dropPin att).name = att.name := by
    intro att
    rw [dropPin]
    split <;> rfl
  have records : (peerRecords (planMembers plans) allocations
      (plan.spec.networks.map dropPin)).lookup name = (plan.spec.networks.map (·.name)).findSome?
        (namedOn (planMembers plans) allocations name) := by
    rw [lookup_peerRecords, findSome?_map, findSome?_map]
    simp only [Function.comp_def, sameName]
  have some_ : (peerRecords (planMembers plans) allocations
      (plan.spec.networks.map dropPin)).entries ≠ [] := by
    intro empty
    rw [AList.lookup, empty] at records
    have none := findSome?_eq_none_iff.mp records.symm net listed
    rw [none] at named
    cases named
  change Option.bind (Option.bind (AList.lookup service (Dict.mapVals _ plans)) _) _ = _
  simp only [Dict.lookup_mapVals, has, Option.map_some, Option.bind_some]
  exact (congrArg (Option.bind · _) (plan.dns_setNet unproxied some_)).trans records

theorem bind_find?_isSome {Item Value : Type} (known : Item → Option Value) (items : List Item) :
    (items.find? fun item => (known item).isSome).bind known = items.findSome? known := by
  induction items with
  | nil => rfl
  | cons item items ih =>
    rw [find?_cons, findSome?_cons]
    cases given : known item with
    | none => exact ih
    | some value => exact given

/-- The network with the least name among those on which the name is known. -/
structure Least (networks : List String) (known : String → Option String) (net : String) :
    Prop where
  listed : net ∈ networks
  named : (known net).isSome
  least : ∀ other ∈ networks, (known other).isSome → net ≤ other

/-- A service that is not proxied resolves a name to the address on the smallest of
the networks that know it when that network comes first of them in the service's
list, and otherwise only where another network gives the same address. -/
theorem records_least_iff (allocated : allocateAll lib (planMembers plans) = .ok allocations)
    (applied : applyUserNetIPs lib plans = .ok result)
    (has : plans.lookup service = some plan) (unproxied : plan.spec.proxy = none)
    (least : Least (plan.spec.networks.map (·.name))
      (namedOn (planMembers plans) allocations name) net) :
    let known := namedOn (planMembers plans) allocations name
    let first := (plan.spec.networks.map (·.name)).find? fun other => (known other).isSome
    (first = some net → recordFor name result service = known net) ∧
      ((∀ other ∈ plan.spec.networks.map (·.name), known other = known net → other = net) →
        recordFor name result service = known net → first = some net) := by
  intro known first
  have record := recordFor_eq allocated applied has unproxied least.listed least.named
  rw [← bind_find?_isSome] at record
  rw [record]
  constructor
  · intro here
    exact (congrArg (Option.bind · known) here).trans rfl
  · intro apart same
    cases found : first with
    | none => exact absurd least.named (find?_eq_none.mp found net least.listed)
    | some other =>
      have again : known other = known net := (congrArg (Option.bind · known) found).symm.trans same
      rw [apart other (mem_of_find?_eq_some found) again]

/-- SHA-256 on the texts that are hashed below; nothing else of the runtime is
called. -/
def knownRuntime : Runtime where
  parseFloat _ := .error ""
  scale _ _ := 0
  toLower text := String.ofList (text.toList.map Char.toLower)
  quote text := "\"" ++ text ++ "\""
  sha256 bytes :=
    -- the networks "a" and "b", and their labels "a-ca978112" and "b-3e23e816"
    if bytes = [97] then
      #v[0xca, 0x97, 0x81, 0x12, 0xca, 0x1b, 0xbd, 0xca, 0xfa, 0xc2, 0x31, 0xb3, 0x9a, 0x23,
        0xdc, 0x4d, 0xa7, 0x86, 0xef, 0xf8, 0x14, 0x7c, 0x4e, 0x72, 0xb9, 0x80, 0x77, 0x85,
        0xaf, 0xee, 0x48, 0xbb]
    else if bytes = [98] then
      #v[0x3e, 0x23, 0xe8, 0x16, 0x00, 0x39, 0x59, 0x4a, 0x33, 0x89, 0x4f, 0x65, 0x64, 0xe1,
        0xb1, 0x34, 0x8b, 0xbd, 0x7a, 0x00, 0x88, 0xd4, 0x2c, 0x4a, 0xcb, 0x73, 0xee, 0xae,
        0xd5, 0x9c, 0x00, 0x9d]
    else if bytes = [97, 45, 99, 97, 57, 55, 56, 49, 49, 50] then
      #v[0x41, 0x46, 0xec, 0xe8, 0x72, 0x45, 0x0d, 0x52, 0xc8, 0x2d, 0x35, 0xec, 0x41, 0x9c,
        0xa8, 0x8c, 0xc3, 0x29, 0x70, 0x05, 0x3d, 0xac, 0x77, 0xf2, 0x67, 0xaa, 0x01, 0x24,
        0x67, 0x19, 0xd1, 0x91]
    else if bytes = [98, 45, 51, 101, 50, 51, 101, 56, 49, 54] then
      #v[0x3b, 0x0d, 0xf4, 0x99, 0xe0, 0xdb, 0xbe, 0x5d, 0xdc, 0xb1, 0xf0, 0x5b, 0x29, 0xbe,
        0x4c, 0xac, 0x81, 0xd2, 0x50, 0x41, 0x26, 0x56, 0x6e, 0x5b, 0x70, 0x6a, 0x5a, 0xc1,
        0xb8, 0x2a, 0x30, 0x35]
    else Vector.replicate 32 0

/-- A service on the given networks, with the address it pins on each. -/
def pinnedPlan (service : String) (networks : List (String × String)) : ServicePlan :=
  { service, resource := service, spec :=
      { name := service, networks := networks.map fun (name, ip) =>
          { name, driver := "bridge", aliases := [service], ip } } }

/-- The networks `a` and `b` have the subnets 10.222.65.0/24 and 10.222.59.0/24; `web`
lists them in the given order. -/
def pairedPlans (order : List (String × String) → List (String × String)) : Dict ServicePlan :=
  (Dict.put ∅ "web" (pinnedPlan "web" (order [("a", "10.222.65.5"), ("b", "10.222.59.5")]))).put
    "db" (pinnedPlan "db" [("a", "10.222.65.6"), ("b", "10.222.59.6")])

/-- The addresses of `db` on the networks `a` and `b`, and its record at `web`. -/
def pairedAddresses (order : List (String × String) → List (String × String)) :
    Except String (List (Option String)) := do
  let plans := pairedPlans order
  let allocations ← allocateAll knownRuntime (planMembers plans)
  let result ← applyUserNetIPs knownRuntime plans
  return ["a", "b"].map (namedOn (planMembers plans) allocations "db") ++
    [recordFor "db" result "web"]

/-- Listed as `b`, `a`, the record is the address on `b`. -/
theorem crossed_record : (pairedAddresses reverse).toOption =
    some [some "10.222.65.6", some "10.222.59.6", some "10.222.59.6"] := by
  decide +kernel

/-- Listed as `a`, `b`, it is the address on `a`. -/
theorem sorted_record : ∃ allocations result,
    allocateAll knownRuntime (planMembers (pairedPlans id)) = .ok allocations ∧
      applyUserNetIPs knownRuntime (pairedPlans id) = .ok result ∧
      namedOn (planMembers (pairedPlans id)) allocations "db" "a" = some "10.222.65.6" ∧
      namedOn (planMembers (pairedPlans id)) allocations "db" "b" = some "10.222.59.6" ∧
      recordFor "db" result "web" =
        namedOn (planMembers (pairedPlans id)) allocations "db" "a" := by
  have seen : (pairedAddresses id).toOption =
      some [some "10.222.65.6", some "10.222.59.6", some "10.222.65.6"] := by
    decide +kernel
  cases given : pairedAddresses id with
  | error cause =>
    rw [given] at seen
    cases seen
  | ok addresses =>
    obtain ⟨allocations, allocated, rest⟩ := exists_of_bind_ok given
    obtain ⟨result, applied, rest⟩ := exists_of_bind_ok rest
    cases rest
    rw [given] at seen
    simp only [Except.toOption, Option.some.injEq, map_cons, map_nil, cons_append,
      nil_append, cons.injEq] at seen
    obtain ⟨onA, onB, -⟩ := seen
    have has : (pairedPlans id).lookup "web" =
        some (pinnedPlan "web" [("a", "10.222.65.5"), ("b", "10.222.59.5")]) := rfl
    have sorted : ∀ other ∈ ["a", "b"], "a" ≤ other := by decide
    have least : Least ["a", "b"] (namedOn (planMembers (pairedPlans id)) allocations "db") "a" :=
      ⟨mem_cons_self, by rw [onA]; rfl, fun other among _ => sorted other among⟩
    have first : ["a", "b"].find? (fun other =>
        (namedOn (planMembers (pairedPlans id)) allocations "db" other).isSome) = some "a" := by
      rw [find?_cons_of_pos]
      rw [onA]
      rfl
    exact ⟨allocations, result, allocated, applied, onA, onB,
      (records_least_iff allocated applied has rfl least).1 first⟩

end Cornus.Compose
