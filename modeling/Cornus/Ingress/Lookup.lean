import Mathlib.Data.List.DropRight

/-!
# Ingress rules by path

`Table.Lookup` compares the path of a request with every rule of its host.  What an
ingress controller asks of the answer is said over path elements, where the slashes
at the end of a rule do not count.
-/

namespace Cornus.Ingress

open List

/-- A Go string is a sequence of bytes. -/
abbrev Text := List UInt8

/-- The byte `/`. -/
def slash : UInt8 := 47

/-- `pathPrefix` stands for every type the switch of `PathMatches` leaves to its default. -/
inductive PathType where
  | exact
  | pathPrefix
deriving DecidableEq

/-- `api.IngressRoute`, with what a rule leads to as one value. -/
structure IngressRoute (Target : Type) where
  path : Text
  pathType : PathType
  target : Target

/-- The rules by host, and the hosts that stand for another one. -/
structure Table (Target : Type) where
  byHost : Text → Option (List (IngressRoute Target))
  aliases : Text → Option Text

/-- `strings.TrimRight(path, "/")`. -/
def trimRight (path : Text) : Text :=
  path.rdropWhile (· == slash)

/-- `PathMatches`; it looks at the root before the type. -/
def pathMatches (path : Text) (pathType : PathType) (req : Text) : Bool :=
  if path = [] ∨ path = [slash] then true
  else
    match pathType with
    | .exact => req = trimRight path
    | .pathPrefix => req = trimRight path ∨ trimRight path ++ [slash] <+: req

/-- `MatchLen`. -/
def matchLen (path : Text) : Nat :=
  (trimRight path).length

variable {Target : Type}

/-- One turn of the loop of `Lookup`; `none` stands for the length -1. -/
def better (path : Text) (best : Option (IngressRoute Target)) (r : IngressRoute Target) :
    Option (IngressRoute Target) :=
  if pathMatches r.path r.pathType path then
    match best with
    | none => some r
    | some route =>
      if matchLen route.path < matchLen r.path ∨ matchLen r.path = matchLen route.path ∧
          r.pathType = .exact ∧ route.pathType ≠ .exact then some r
      else some route
  else best

/-- The rules of a host that is already canonical. -/
def Table.rules (table : Table Target) (host : Text) : Option (List (IngressRoute Target)) :=
  (table.byHost host).or ((table.aliases host).bind table.byHost)

/-- `Lookup`, with whether the host is known; `canonical` strips the port as well. -/
def Table.lookup (canonical : Text → Text) (table : Table Target) (host path : Text) :
    Option (IngressRoute Target) × Bool :=
  match table.rules (canonical host) with
  | none => (none, false)
  | some rules => (rules.foldl (better path) none, true)

/-- A rule's path up to its last byte that is not a slash. -/
def stem : Text → Text
  | [] => []
  | byte :: rest => if (byte :: rest).all (· == slash) then [] else byte :: stem rest

/-- What a rule says in the words of a controller. -/
def IngressRoute.Matches (r : IngressRoute Target) (path : Text) : Prop :=
  match r.pathType with
  | .exact => path = r.path
  | .pathPrefix => r.path = [] ∨ r.path = [slash] ∨
      (stem r.path).splitOn slash <+: path.splitOn slash

/-- The answer is a matching rule of greatest length, an exact one if there is one.  A
slash at its end does not make a rule longer. -/
def Best (hit : IngressRoute Target → Prop) (rules : List (IngressRoute Target)) :
    Option (IngressRoute Target) → Prop
  | none => ∀ r ∈ rules, ¬hit r
  | some route => route ∈ rules ∧ hit route ∧ ∀ r ∈ rules, hit r →
      (stem r.path).length ≤ (stem route.path).length ∧
        ((stem r.path).length = (stem route.path).length → r.pathType = .exact →
          route.pathType = .exact)

theorem stem_append_slash (path : Text) : stem (path ++ [slash]) = stem path := by
  induction path with
  | nil => rfl
  | cons byte rest ih => simp [stem, ih]

theorem stem_append_of_ne {byte : UInt8} (path : Text) (other : byte ≠ slash) :
    stem (path ++ [byte]) = path ++ [byte] := by
  induction path with
  | nil => simp [stem, other]
  | cons first rest ih =>
    have plain : ((first :: (rest ++ [byte])).all (· == slash)) = false := by simp [other]
    rw [cons_append, stem, plain, ih]
    rfl

theorem trimRight_eq_stem (path : Text) : trimRight path = stem path := by
  induction path using List.reverseRecOn with
  | nil => rfl
  | append_singleton front byte ih =>
    by_cases ends : byte = slash
    · subst ends
      rw [stem_append_slash, ← ih]
      exact rdropWhile_concat_pos _ _ _ (by simp)
    · rw [stem_append_of_ne front ends]
      exact rdropWhile_concat_neg _ _ _ (by simp [ends])

theorem matchLen_eq (path : Text) : matchLen path = (stem path).length := by
  rw [matchLen, trimRight_eq_stem]

theorem intercalate_append (some_ : front ≠ []) (more : back ≠ []) :
    [slash].intercalate (front ++ back) =
      [slash].intercalate front ++ slash :: [slash].intercalate back := by
  induction front with
  | nil => exact absurd rfl some_
  | cons first rest ih =>
    cases rest with
    | nil => simp [intercalate_cons_of_ne_nil more]
    | cons second rest => simpa [intercalate_cons_cons] using ih (cons_ne_nil _ _)

theorem splitOn_begins_iff {path req : Text} : path.splitOn slash <+: req.splitOn slash ↔
    req = path ∨ path ++ [slash] <+: req := by
  constructor
  · rintro ⟨rest, same⟩
    have whole := @intercalate_splitOn _ req _ _ slash
    rw [← same] at whole
    cases rest with
    | nil =>
      rw [append_nil, intercalate_splitOn] at whole
      exact .inl whole.symm
    | cons first rest =>
      rw [intercalate_append (by simp) (cons_ne_nil _ _), intercalate_splitOn] at whole
      exact .inr ⟨_, by rw [append_assoc]; exact whole⟩
  · rintro (rfl | ⟨rest, rfl⟩)
    · exact prefix_refl _
    · rw [append_assoc, singleton_append, splitOn_append_cons_self]
      exact prefix_append _ _

theorem best_lookup (path : Text) (rules : List (IngressRoute Target)) :
    Best (fun r => pathMatches r.path r.pathType path) rules (rules.foldl (better path) none) := by
  induction rules using List.reverseRecOn with
  | nil => exact fun _ mem => nomatch mem
  | append_singleton rules r ih =>
    rw [foldl_append, foldl_cons, foldl_nil]
    generalize rules.foldl (better path) none = best at ih
    cases best <;> grind [Best, better, matchLen_eq]

theorem matchLen_le_of_begins (begins : path <+: req) : matchLen path ≤ matchLen req := by
  obtain ⟨rest, rfl⟩ := begins
  simp only [matchLen, trimRight, rdropWhile, reverse_append, length_reverse, dropWhile_append]
  split
  · exact Nat.le_refl _
  · rw [length_append]
    exact Nat.le_trans (length_dropWhile_le ..) (Nat.le_add_left ..)

theorem begins_of_pathMatches (hit : pathMatches path pathType req) : trimRight path <+: req := by
  unfold pathMatches at hit
  split_ifs at hit with root
  · rcases root with rfl | rfl <;> exact nil_prefix
  cases pathType with
  | exact =>
    rw [decide_eq_true_eq] at hit
    exact hit ▸ prefix_refl _
  | pathPrefix =>
    rcases decide_eq_true_eq.mp hit with rfl | begins
    · exact prefix_refl _
    · exact (prefix_append _ _).trans begins

theorem matchLen_le_of_pathMatches (hit : pathMatches path pathType req) :
    matchLen path ≤ matchLen req := by
  have shorter := matchLen_le_of_begins (begins_of_pathMatches hit)
  rwa [matchLen, trimRight, trimRight, rdropWhile_idempotent] at shorter

theorem trimRight_eq_self_iff : trimRight path = path ↔ path.getLast? ≠ some slash := by
  rcases eq_nil_or_concat path with rfl | ⟨front, last, rfl⟩ <;> simp [trimRight]

theorem matches_iff {r : IngressRoute Target}
    (plain : r.pathType = .exact → r.path ≠ [] ∧ r.path.getLast? ≠ some slash) :
    pathMatches r.path r.pathType path ↔ r.Matches path := by
  cases kind : r.pathType with
  | exact =>
    obtain ⟨some_, last⟩ := plain kind
    have root : ¬(r.path = [] ∨ r.path = [slash]) := by
      rintro (empty | only)
      · exact some_ empty
      · exact last (by rw [only]; rfl)
    simp [pathMatches, IngressRoute.Matches, kind, root, trimRight_eq_self_iff.mpr last]
  | pathPrefix =>
    simp only [pathMatches, IngressRoute.Matches, kind, splitOn_begins_iff, trimRight_eq_stem]
    split_ifs with root <;> simp [← or_assoc, root]

theorem Best.congr {hit other : IngressRoute Target → Prop} (same : ∀ r ∈ rules, hit r ↔ other r)
    (best : Best hit rules answer) : Best other rules answer := by
  cases answer <;> grind [Best]

theorem root_of_long (short : path.length ≤ bound)
    (hit : pathMatches path pathType (0 :: replicate bound 0)) : path = [] ∨ path = [slash] := by
  by_contra root
  have trimmed := IsPrefix.length_le ( rdropWhile_prefix (· == slash) path)
  have other : 0 :: replicate bound 0 ≠ trimRight path := by
    intro same
    have lengths := congrArg length same
    rw [length_cons, length_replicate, trimRight] at lengths
    omega
  unfold pathMatches at hit
  rw [if_neg root] at hit
  cases pathType with
  | exact => exact other (decide_eq_true_eq.mp hit)
  | pathPrefix =>
    rcases decide_eq_true_eq.mp hit with same | begins
    · exact other same
    · have mem := begins.subset (mem_append_right _ mem_cons_self)
      simp [slash] at mem

section

variable {rules : List (IngressRoute Target)} {r : IngressRoute Target}
  (mem : r ∈ rules) (kind : r.pathType = .exact)
include mem kind

/-- A long path without a slash is answered by the rule for the root. -/
theorem not_best_of_root (root : r.path = [] ∨ r.path = [slash]) :
    ∃ path, ¬Best (·.Matches path) rules (rules.foldl (better path) none) := by
  obtain ⟨bound, within⟩ : ∃ bound, ∀ r ∈ rules, r.path.length ≤ bound :=
    ⟨(rules.map (·.path.length)).max?.getD 0, fun r mem => le_max?_getD_of_mem (mem_map_of_mem mem)⟩
  refine ⟨0 :: replicate bound 0, fun follows => ?_⟩
  have code := best_lookup (0 :: replicate bound 0) rules
  cases found : rules.foldl (better (0 :: replicate bound 0)) none with
  | none =>
    rw [found] at code
    exact code r mem (by simp [pathMatches, root])
  | some route =>
    rw [found] at follows code
    obtain ⟨among, hit, greatest⟩ := code
    have rootToo := root_of_long (within route among) hit
    have zero : ∀ path, path = [] ∨ path = [slash] → (stem path).length = 0 := by
      rintro _ (rfl | rfl) <;> rfl
    have routeExact := (greatest r mem (by simp [pathMatches, root])).2
      (by rw [zero _ root, zero _ rootToo]) kind
    have matched := follows.2.1
    simp only [IngressRoute.Matches, routeExact] at matched
    rcases rootToo with empty | only
    · cases matched.trans empty
    · cases matched.trans only

/-- A path that ends in a slash is not answered by the exact rule for it. -/
theorem not_best_of_slash (root : ¬(r.path = [] ∨ r.path = [slash]))
    (last : r.path.getLast? = some slash) :
    ¬Best (·.Matches r.path) rules (rules.foldl (better r.path) none) := by
  intro follows
  have code := best_lookup r.path rules
  have own : r.Matches r.path := by simp [IngressRoute.Matches, kind]
  cases found : rules.foldl (better r.path) none with
  | none =>
    rw [found] at follows
    exact follows r mem own
  | some route =>
    rw [found] at follows code
    obtain ⟨_, matched, greatest⟩ := follows
    obtain ⟨longer, exactly⟩ := greatest r mem own
    have hit : pathMatches route.path route.pathType r.path := code.2.1
    have shorter := matchLen_le_of_pathMatches hit
    rw [matchLen_eq, matchLen_eq] at shorter
    have routeExact := exactly (Nat.le_antisymm longer shorter) kind
    simp only [IngressRoute.Matches, routeExact] at matched
    rw [routeExact, ← matched, pathMatches, if_neg root, decide_eq_true_eq] at hit
    exact trimRight_eq_self_iff.mp hit.symm last

end

/-- The answer is the controller's for every path exactly when the exact rules of the
host are ones that `PathMatches` neither takes for the root nor trims. -/
theorem lookup_follows_iff (canonical : Text → Text) (table : Table Target) (host : Text) :
    (∀ path, Best (·.Matches path) ((table.rules (canonical host)).getD [])
        (table.lookup canonical host path).1) ↔
      ∀ r ∈ (table.rules (canonical host)).getD [], r.pathType = .exact →
        r.path ≠ [] ∧ r.path.getLast? ≠ some slash := by
  have answer : ∀ path, (table.lookup canonical host path).1 =
      ((table.rules (canonical host)).getD []).foldl (better path) none := by
    intro path
    unfold Table.lookup
    split <;> simp [*]
  simp only [answer]
  generalize (table.rules (canonical host)).getD [] = rules
  constructor
  · intro follows r mem kind
    by_contra flawed
    by_cases root : r.path = [] ∨ r.path = [slash]
    · obtain ⟨path, refused⟩ := not_best_of_root mem kind root
      exact refused (follows path)
    · refine not_best_of_slash mem kind root ?_ (follows r.path)
      by_contra last
      exact flawed ⟨fun empty => root (.inl empty), last⟩
  · intro plain path
    exact (best_lookup path rules).congr fun r mem => matches_iff (plain r mem)

/-- One exact rule for the root. -/
def exactRoot : Table Unit :=
  { byHost := fun _ => some [{ path := [slash], pathType := .exact, target := () }]
    aliases := fun _ => none }

/-- The exact rule for `/` answers the request `/x`. -/
theorem exactRoot_not_best :
    (exactRoot.lookup id [] [slash, 120]).1 =
        some { path := [slash], pathType := .exact, target := () } ∧
      ¬Best (·.Matches [slash, 120]) ((exactRoot.rules []).getD [])
        (exactRoot.lookup id [] [slash, 120]).1 := by
  refine ⟨rfl, fun follows => ?_⟩
  have matched : [slash, 120] = [slash] := follows.2.1
  cases matched

end Cornus.Ingress
