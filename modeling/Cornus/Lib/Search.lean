import Mathlib.Data.List.Basic
import Mathlib.Logic.Relation

/-!
# Worklist search

A search takes nodes from a stack, expands each one the first time it meets it
and pushes what the expansion gives.  An expansion may fail, which ends the
search.  A search that ends well has visited exactly the nodes that can be
reached from the first stack; it ends because each node is expanded once.
-/

namespace Cornus.Search

open List

variable {Node Fault : Type}

section

variable (expand : Node → Except Fault (List Node))

def Edge (node next : Node) : Prop :=
  ∃ nodes, expand node = .ok nodes ∧ next ∈ nodes

def Reached (starts : List Node) (node : Node) : Prop :=
  ∃ start ∈ starts, Relation.ReflTransGen (Edge expand) start node

variable {expand} {starts rest : List Node} {node found : Node}

theorem Reached.of_mem (mem : node ∈ starts) : Reached expand starts node :=
  ⟨node, mem, .refl⟩

theorem Reached.mono (included : ∀ start ∈ starts, Reached expand others start)
    (reached : Reached expand starts node) : Reached expand others node := by
  obtain ⟨start, mem, path⟩ := reached
  obtain ⟨first, among, before⟩ := included start mem
  exact ⟨first, among, before.trans path⟩

theorem Reached.of_expanded {next : List Node} (expanded : expand node = .ok next)
    (reached : Reached expand (next ++ rest) found) : Reached expand (node :: rest) found := by
  apply reached.mono
  intro start mem
  rcases mem_append.mp mem with child | waiting
  · exact ⟨node, mem_cons_self, .single ⟨next, expanded, child⟩⟩
  · exact .of_mem (mem_cons_of_mem _ waiting)

theorem Reached.of_rest
    (reached : Reached expand rest found) : Reached expand (node :: rest) found := by
  apply reached.mono
  intro start mem
  exact .of_mem (mem_cons_of_mem _ mem)

end

variable [DecidableEq Node] (expand : Node → Except Fault (List Node))

/-- The visited nodes, or the fault that ended the search; `none` when the fuel
runs out. -/
def search : Nat → List Node → List Node → Option (Except Fault (List Node))
  | 0, _, _ => none
  | _ + 1, [], visited => some (.ok visited)
  | fuel + 1, node :: rest, visited =>
    if node ∈ visited then search fuel rest visited
    else
      match expand node with
      | .error fault => some (.error fault)
      | .ok next => search fuel (next ++ rest) (node :: visited)

variable {expand} {fuel : Nat} {queue visited found starts nodes : List Node} {node : Node}

theorem search_sound (ended : search expand fuel queue visited = some (.ok found)) :
    ∀ node ∈ found, node ∈ visited ∨ Reached expand queue node := by
  induction fuel generalizing queue visited with
  | zero => cases ended
  | succ fuel ih =>
    cases queue with
    | nil =>
      cases ended
      intro node mem
      exact .inl mem
    | cons first rest =>
      rw [search] at ended
      intro node mem
      split at ended
      · exact (ih ended node mem).imp_right Reached.of_rest
      split at ended
      · cases ended
      rename_i next expanded
      rcases ih ended node mem with known | reached
      · rcases mem_cons.mp known with rfl | before
        · exact .inr (.of_mem mem_cons_self)
        · exact .inl before
      · exact .inr (reached.of_expanded expanded)

/-- The visited nodes stay visited, the stack is visited, and the successors of
what the search visits are visited. -/
theorem search_closed (ended : search expand fuel queue visited = some (.ok found)) :
    (∀ node ∈ visited, node ∈ found) ∧ (∀ node ∈ queue, node ∈ found) ∧
      ∀ node ∈ found, node ∉ visited →
        ∃ next, expand node = .ok next ∧ ∀ other ∈ next, other ∈ found := by
  induction fuel generalizing queue visited with
  | zero => cases ended
  | succ fuel ih =>
    cases queue with
    | nil =>
      cases ended
      refine ⟨fun node mem => mem, ?_, ?_⟩
      · intro node mem
        cases mem
      · intro node mem fresh
        exact absurd mem fresh
    | cons first rest =>
      rw [search] at ended
      split at ended
      · rename_i known
        obtain ⟨kept, taken, closed⟩ := ih ended
        refine ⟨kept, fun node mem => ?_, closed⟩
        rcases mem_cons.mp mem with rfl | later
        · exact kept node known
        · exact taken node later
      · split at ended
        · cases ended
        rename_i next expanded
        obtain ⟨kept, taken, closed⟩ := ih ended
        have own : first ∈ found := kept first mem_cons_self
        refine ⟨fun node mem => kept node (mem_cons_of_mem _ mem), fun node mem => ?_,
          fun node mem fresh => ?_⟩
        · rcases mem_cons.mp mem with rfl | later
          · exact own
          · exact taken node (mem_append_right _ later)
        · by_cases same : node = first
          · subst same
            exact ⟨next, expanded, fun other among =>
              taken other (mem_append_left _ among)⟩
          · apply closed node mem
            intro before
            rcases mem_cons.mp before with equal | old
            · exact same equal
            · exact fresh old

theorem mem_search_iff (ended : search expand fuel starts [] = some (.ok found)) (node : Node) :
    node ∈ found ↔ Reached expand starts node := by
  constructor
  · intro mem
    rcases search_sound ended node mem with impossible | reached
    · cases impossible
    · exact reached
  · rintro ⟨start, mem, path⟩
    obtain ⟨_, taken, closed⟩ := search_closed ended
    induction path with
    | refl => exact taken start mem
    | tail _ edge ih =>
      obtain ⟨next, expanded, among⟩ := edge
      obtain ⟨other, same, inside⟩ := closed _ ih not_mem_nil
      rw [expanded] at same
      cases same
      exact inside _ among

theorem expands_of_search (ended : search expand fuel starts [] = some (.ok found))
    (reached : Reached expand starts node) : ∃ next, expand node = .ok next := by
  have mem := (mem_search_iff ended node).mpr reached
  obtain ⟨next, expanded, _⟩ := (search_closed ended).2.2 node mem not_mem_nil
  exact ⟨next, expanded⟩

def pushed (expand : Node → Except Fault (List Node)) (node : Node) : Nat :=
  match expand node with
  | .error _ => 0
  | .ok next => next.length

/-- How many pushes are still to come, if only these nodes push any. -/
def remaining (expand : Node → Except Fault (List Node)) (visited : List Node) : List Node → Nat
  | [] => 0
  | node :: nodes =>
    (if node ∈ visited then 0 else pushed expand node) + remaining expand visited nodes

theorem remaining_visit_le (nodes visited : List Node) (node : Node) :
    remaining expand (node :: visited) nodes ≤ remaining expand visited nodes := by
  induction nodes with
  | nil => exact Nat.le_refl _
  | cons first rest ih =>
    rw [remaining, remaining]
    by_cases known : first ∈ visited
    · rw [if_pos (mem_cons_of_mem _ known), if_pos known]
      omega
    · rw [if_neg known]
      split <;> omega

theorem remaining_visit_add (fresh : node ∉ visited) (mem : node ∈ nodes) :
    remaining expand (node :: visited) nodes + pushed expand node ≤
      remaining expand visited nodes := by
  induction nodes with
  | nil => cases mem
  | cons first rest ih =>
    rw [remaining, remaining]
    by_cases same : first = node
    · subst same
      have less : remaining expand (first :: visited) rest ≤
          remaining expand visited rest := remaining_visit_le rest visited _
      rw [if_pos mem_cons_self, if_neg fresh]
      omega
    · have later : node ∈ rest := by
        rcases mem_cons.mp mem with equal | later
        · exact absurd equal.symm same
        · exact later
      have smaller := ih later
      have kept : first ∈ node :: visited ↔ first ∈ visited := by
        rw [mem_cons]
        exact or_iff_right same
      simp only [kept]
      omega

theorem search_ends (only : ∀ node, node ∉ nodes → pushed expand node = 0)
    (enough : queue.length + remaining expand visited nodes < fuel) :
    (search expand fuel queue visited).isSome = true := by
  induction fuel generalizing queue visited with
  | zero => exact absurd enough (Nat.not_lt_zero _)
  | succ fuel ih =>
    cases queue with
    | nil => rfl
    | cons first rest =>
      rw [length_cons] at enough
      rw [search]
      split
      · apply ih
        omega
      · rename_i fresh
        split
        · rfl
        rename_i next expanded
        apply ih
        have size : pushed expand first = next.length := by
          rw [pushed, expanded]
        rw [length_append]
        by_cases mem : first ∈ nodes
        · have used : remaining expand (first :: visited) nodes +
              pushed expand first ≤ remaining expand visited nodes :=
            remaining_visit_add fresh mem
          omega
        · have silent := only first mem
          have kept : remaining expand (first :: visited) nodes ≤ remaining expand visited nodes :=
            remaining_visit_le nodes visited first
          omega

end Cornus.Search
