import Cornus.Ingress.Lookup
import Mathlib.Data.Fintype.EquivFin

/-!
# Rebuilding the index of the ingress rules

Every change of a workload's routes builds the index of all hosts anew, in the order
in which the map of the workloads is gone over.
-/

namespace Cornus.Ingress

open List Function

/-- What a rule leads to, with the hosts it is for. -/
structure Backend (Port : Type) where
  workload : Text
  hosts : List Text
  port : Port

/-- A route whose backend knows its ports. -/
abbrev Route (Port : Type) := IngressRoute (Backend Port)

variable {Port : Type}

/-- A route as `Set` keeps it, if a host of it is left. -/
def normalized (canonical : Text → Text) (workload : Text) (r : Route Port) :
    Option (Route Port) :=
  let hosts := (r.target.hosts.map canonical).filter (· ≠ [])
  if hosts = [] then none
  else some { r with target := { r.target with workload := workload, hosts := hosts } }

/-- The map after `Set`; with no routes it is the one after `Remove`. -/
def set (canonical : Text → Text) (byWorkload : Text → List (Route Port)) (workload : Text)
    (routes : List (Route Port)) : Text → List (Route Port) :=
  update byWorkload workload (routes.filterMap (normalized canonical workload))

/-- The routes on a host, once for each time they name it. -/
def served (host : Text) (routes : List (Route Port)) : List (Route Port) :=
  routes.flatMap fun r => (r.target.hosts.filter (· = host)).map fun _ => r

/-- A table.  `order` lists the workloads as the last `reindexLocked` met them, and a
route is kept under the workload it names. -/
structure Routing (Port : Type) where
  byWorkload : Text → List (Route Port)
  order : List Text
  aliases : Text → Option Text
  distinct : order.Nodup
  listed : ∀ workload, byWorkload workload ≠ [] ↔ workload ∈ order
  named : ∀ workload, ∀ r ∈ byWorkload workload, r.target.workload = workload

namespace Routing

variable (s : Routing Port)

/-- The rules of a host in the order in which they were collected. -/
def onHost (host : Text) : List (Route Port) :=
  s.order.flatMap fun workload => served host (s.byWorkload workload)

/-- The entry of the rebuilt index for a host. -/
def reindexLocked (host : Text) : Option (List (Route Port)) :=
  if s.onHost host = [] then none else some (s.onHost host)

/-- The table that requests are looked up in. -/
def table : Table (Backend Port) :=
  { byHost := s.reindexLocked, aliases := s.aliases }

/-- The host whose rules answer a request for a host. -/
def resolve (host : Text) : Text :=
  if s.onHost host = [] then (s.aliases host).getD host else host

/-- A rule of the workload is among those that answer for the host. -/
def Serves (workload host : Text) : Prop :=
  served (s.resolve host) (s.byWorkload workload) ≠ []

/-- No `Set` of a workload that serves the host neither before nor after it moves an
answer, whatever the order of the rebuild. -/
def Unmoved (canonical clean : Text → Text) (host : Text) : Prop :=
  ∀ (workload : Text) (routes : List (Route Port)) (next : Routing Port),
    next.byWorkload = set canonical s.byWorkload workload routes → next.aliases = s.aliases →
    ¬s.Serves workload (clean host) → ¬next.Serves workload (clean host) →
    ∀ path, next.table.lookup clean host path = s.table.lookup clean host path

end Routing

/-- Two workloads have a rule for the path that no rule outranks. -/
def Contested (path : Text) (rules : List (Route Port)) : Prop :=
  ∃ r other, Best (fun r => pathMatches r.path r.pathType path) rules (some r) ∧
    Best (fun r => pathMatches r.path r.pathType path) rules (some other) ∧
    r.target.workload ≠ other.target.workload

theorem foldl_better_filter {rules : List (IngressRoute Target)} (p : IngressRoute Target → Bool)
    (chosen : p r) (found : rules.foldl (better path) none = some r) :
    (rules.filter p).foldl (better path) none = some r := by
  induction rules using reverseRecOn with
  | nil => cases found
  | append_singleton rules last ih =>
    have whole := best_lookup path rules
    have kept := best_lookup path (rules.filter p)
    rw [foldl_append, foldl_cons, foldl_nil] at found
    rw [filter_append, foldl_append]
    generalize rules.foldl (better path) none = best at found whole ih
    generalize (rules.filter p).foldl (better path) none = among at kept ih
    cases best <;> cases among <;> cases taken : p last <;> grind [better, Best, matchLen_eq]

theorem foldl_better_append {rules rest : List (IngressRoute Target)} (mem : r ∈ rules)
    (best : Best (fun r => pathMatches r.path r.pathType path) (rules ++ rest) (some r)) :
    ∃ answer ∈ rules, (rules ++ rest).foldl (better path) none = some answer := by
  have front := best_lookup path rules
  cases found : rules.foldl (better path) none with
  | none => grind [Best]
  | some answer =>
    rw [found] at front
    refine ⟨answer, front.1, ?_⟩
    rw [foldl_append, found]
    have above : ∀ other ∈ rest, better path (some answer) other = some answer := by
      grind [better, Best, matchLen_eq]
    clear best
    induction rest with
    | nil => rfl
    | cons other rest ih => grind

/-- The rules of each workload are the same ones in the same order. -/
def Alike (rules others : List (Route Port)) : Prop :=
  ∀ workload, rules.filter (·.target.workload = workload) =
    others.filter (·.target.workload = workload)

section Alike

variable {rules others : List (Route Port)} (alike : Alike rules others)
include alike

theorem Alike.mem_iff : r ∈ others ↔ r ∈ rules := by
  have mine := congrArg (r ∈ ·) (alike r.target.workload)
  simpa using mine.symm

theorem Alike.answer (calm : ¬Contested path rules) :
    others.foldl (better path) none = rules.foldl (better path) none := by
  have mine := best_lookup path rules
  have theirs := best_lookup path others
  cases found : rules.foldl (better path) none with
  | none =>
    cases chosen : others.foldl (better path) none with
    | none => rfl
    | some other =>
      rw [found] at mine
      rw [chosen] at theirs
      exact absurd theirs.2.1 (mine other (alike.mem_iff.mp theirs.1))
  | some r =>
    rw [found] at mine
    cases chosen : others.foldl (better path) none with
    | none =>
      rw [chosen] at theirs
      exact absurd mine.2.1 (theirs r (alike.mem_iff.mpr mine.1))
    | some other =>
      rw [chosen] at theirs
      simp only [Best, alike.mem_iff] at theirs
      have agree : other.target.workload = r.target.workload := by
        by_contra apart
        exact calm ⟨other, r, theirs, mine, apart⟩
      have left := foldl_better_filter (·.target.workload = r.target.workload) (by simp) found
      have right := foldl_better_filter (·.target.workload = r.target.workload)
        (by simpa using agree) chosen
      rw [alike] at left
      exact right.symm.trans left

end Alike

namespace Routing

variable {s next : Routing Port} {host : Text}

theorem workload_of_served (mem : r ∈ served host (s.byWorkload workload)) :
    r.target.workload = workload := by
  simp only [served, mem_flatMap, mem_map] at mem
  obtain ⟨_, given, _, _, rfl⟩ := mem
  exact s.named workload _ given

theorem filter_onHost (host workload : Text) :
    (s.onHost host).filter (·.target.workload = workload) =
      served host (s.byWorkload workload) := by
  have others : ∀ order : List Text, workload ∉ order →
      (order.flatMap fun name => served host (s.byWorkload name)).filter
        (·.target.workload = workload) = [] := by
    intro order absent
    simp only [filter_eq_nil_iff, mem_flatMap, decide_eq_true_eq]
    rintro r ⟨name, mem, is⟩ rfl
    rw [workload_of_served is] at absent
    exact absent mem
  by_cases mem : workload ∈ s.order
  · obtain ⟨before, after, split⟩ := append_of_mem mem
    have distinct := s.distinct
    rw [split, nodup_middle, nodup_cons, mem_append, not_or] at distinct
    rw [onHost, split, flatMap_append, flatMap_cons, filter_append, filter_append,
      others before distinct.1.1, others after distinct.1.2, append_nil, nil_append,
      filter_eq_self]
    exact fun r is => decide_eq_true (workload_of_served is)
  · rw [onHost, others _ mem, not_not.mp (mt (s.listed workload).mp mem)]
    rfl

theorem onHost_eq_nil_iff (host : Text) :
    s.onHost host = [] ↔ ∀ workload, served host (s.byWorkload workload) = [] := by
  constructor
  · intro empty workload
    rw [← filter_onHost, empty]
    rfl
  · intro none_
    simp only [onHost, none_, flatMap_eq_nil_iff, implies_true]

theorem rules_eq : s.table.rules host = s.reindexLocked (s.resolve host) := by
  unfold Table.rules resolve table
  by_cases empty : s.onHost host = []
  · rw [if_pos empty]
    cases aliased : s.aliases host <;> simp [reindexLocked, empty, aliased]
  · simp [reindexLocked, empty]

theorem getD_rules : (s.table.rules host).getD [] = s.onHost (s.resolve host) := by
  rw [rules_eq, reindexLocked]
  split_ifs with empty <;> simp [empty]

theorem lookup_eq (clean : Text → Text) : s.table.lookup clean host path =
    ((s.onHost (s.resolve (clean host))).foldl (better path) none,
      decide (s.onHost (s.resolve (clean host)) ≠ [])) := by
  unfold Table.lookup
  rw [rules_eq, reindexLocked]
  split_ifs with empty <;> simp [empty]

theorem lookup_iff (resolved : next.resolve host = s.resolve host)
    (alike : Alike (s.onHost (s.resolve host)) (next.onHost (s.resolve host))) :
    next.table.lookup id host path = s.table.lookup id host path ↔
      (next.onHost (s.resolve host)).foldl (better path) none =
        (s.onHost (s.resolve host)).foldl (better path) none := by
  have nil_iff : next.onHost (s.resolve host) = [] ↔ s.onHost (s.resolve host) = [] := by
    simp only [eq_nil_iff_forall_not_mem, alike.mem_iff]
  rw [lookup_eq, lookup_eq, id, resolved, Prod.mk.injEq]
  exact and_iff_left (by simp only [ne_eq, nil_iff])

section Unrelated

variable (aliases : next.aliases = s.aliases)
  (others : ∀ name, name ≠ workload → next.byWorkload name = s.byWorkload name)
  (unserved : ¬s.Serves workload host) (still : ¬next.Serves workload host)
include aliases others unserved still

/-- A workload that serves the host neither before nor after a change does not give it
its first rule and does not take its last one. -/
theorem resolve_eq : next.resolve host = s.resolve host := by
  rw [Serves, not_not] at unserved still
  have same : next.onHost host = [] ↔ s.onHost host = [] := by
    simp only [onHost_eq_nil_iff]
    constructor
    · intro empty name
      by_cases own : name = workload
      · rw [own]
        by_contra some_
        have listed : s.onHost host ≠ [] := fun none_ => some_ ((onHost_eq_nil_iff host).mp none_ _)
        rw [resolve, if_neg listed] at unserved
        exact some_ unserved
      · rw [← others name own]
        exact empty name
    · intro empty name
      by_cases own : name = workload
      · rw [own]
        by_contra some_
        have listed : next.onHost host ≠ [] :=
          fun none_ => some_ ((onHost_eq_nil_iff host).mp none_ _)
        rw [resolve, if_neg listed] at still
        exact some_ still
      · rw [others name own]
        exact empty name
  exact if_congr same (by rw [aliases]) rfl

theorem alike_resolve : Alike (s.onHost (s.resolve host)) (next.onHost (s.resolve host)) := by
  have resolved := resolve_eq aliases others unserved still
  rw [Serves, not_not] at unserved still
  intro name
  rw [filter_onHost, filter_onHost]
  by_cases own : name = workload
  · rw [own, unserved, ← resolved, still]
  · rw [others name own]

end Unrelated

theorem answer_of_unmoved (unmoved : s.Unmoved canonical id host)
    (best : Best (fun r => pathMatches r.path r.pathType path) (s.onHost (s.resolve host))
      (some r)) :
    ∃ answer, (s.onHost (s.resolve host)).foldl (better path) none = some answer ∧
      answer.target.workload = r.target.workload := by
  obtain ⟨workload, mem, own⟩ := mem_flatMap.mp best.1
  obtain ⟨other, fresh⟩ := Infinite.exists_notMem_finset s.order.toFinset
  rw [mem_toFinset, ← s.listed, not_not] at fresh
  have moved := perm_cons_erase mem
  let next : Routing Port :=
    { s with
      order := workload :: s.order.erase workload
      distinct := moved.nodup s.distinct
      listed := fun name => (s.listed name).trans moved.mem_iff }
  have alike : ∀ name, Alike (s.onHost name) (next.onHost name) := by
    intro name workload
    rw [filter_onHost, filter_onHost]
  have unserved : ¬s.Serves other host := by
    rw [Serves, fresh]
    exact fun some_ => some_ rfl
  have idle : ¬next.Serves other host := by
    rw [Serves, show next.byWorkload other = [] from fresh]
    exact fun some_ => some_ rfl
  have changed : next.byWorkload = set canonical s.byWorkload other [] := by
    exact (update_eq_self_iff.mpr fresh.symm).symm
  have aliases : next.aliases = s.aliases := rfl
  have resolved : next.resolve host = s.resolve host :=
    resolve_eq aliases (fun _ _ => rfl) unserved idle
  have same := (lookup_iff resolved (alike _)).mp
    (unmoved other [] next changed aliases unserved idle path)
  have greatest : Best (fun r => pathMatches r.path r.pathType path)
      (next.onHost (s.resolve host)) (some r) := by
    simpa only [Best, (alike _).mem_iff] using best
  obtain ⟨answer, chosen, found⟩ := foldl_better_append own greatest
  refine ⟨answer, same.symm.trans found, ?_⟩
  rw [workload_of_served own, workload_of_served chosen]

/-- Unrelated changes leave the answers alone exactly when no path has rules of two
workloads that nothing outranks. -/
theorem unmoved_iff (canonical clean : Text → Text) (s : Routing Port) (host : Text) :
    s.Unmoved canonical clean host ↔
      ∀ path, ¬Contested path ((s.table.rules (clean host)).getD []) := by
  rw [getD_rules]
  constructor
  · rintro unmoved path ⟨r, other, best, equal, apart⟩
    obtain ⟨answer, found, mine⟩ := answer_of_unmoved unmoved best
    obtain ⟨again, twice, theirs⟩ := answer_of_unmoved unmoved equal
    cases found.symm.trans twice
    exact apart (mine.symm.trans theirs)
  · intro calm workload routes next changed aliases unserved still path
    have others : ∀ name, name ≠ workload → next.byWorkload name = s.byWorkload name := by
      intro name apart
      rw [changed, set, update_of_ne apart]
    have resolved := resolve_eq aliases others unserved still
    have alike := alike_resolve aliases others unserved still
    exact (lookup_iff resolved alike).mpr (alike.answer (calm path))

/-- Two workloads with the same rule on one host. -/
def tied (order : List Text) (distinct : order.Nodup)
    (both : ∀ workload, workload = [97] ∨ workload = [98] ↔ workload ∈ order) : Routing Unit where
  byWorkload workload := if workload = [97] ∨ workload = [98] then
      [⟨[slash], .pathPrefix, ⟨workload, [[104]], ()⟩⟩]
    else []
  order
  aliases _ := none
  distinct
  listed workload := by
    rw [← both]
    split_ifs with present <;> simp [present]
  named workload r mem := by
    split_ifs at mem
    · rw [mem_singleton.mp mem]
    · cases mem

/-- Another workload is removed, and the rebuild meets the two in the other order. -/
theorem tied_moved : ¬(tied [[97], [98]] (by decide) (by simp)).Unmoved id id [104] := by
  intro unmoved
  have moved := unmoved [99] [] (tied [[98], [97]] (by decide) (by simp [or_comm]))
    (update_eq_self_iff.mpr rfl).symm rfl (fun some_ => some_ rfl)
    (fun some_ => some_ rfl) []
  exact absurd (congrArg (fun found => found.1.map (·.target.workload)) moved) (by decide)

end Routing

end Cornus.Ingress
