import Cornus.Lib.NetAddress
import Mathlib.Data.Fintype.Basic

/-!
# Paged listings of tags and repositories

A page ends with a link to the next one.  The link names the last item of the
page, escaped into the query of a URL; the server finds its place again from it.
-/

namespace Cornus.Registry

open List

/-- A Go string is a sequence of bytes. -/
abbrev Text := List (Fin 256)

/-- A text as its bytes. -/
def text (literal : String) : Text :=
  literal.toList.map fun c => Fin.ofNat 256 c.toNat

/-- The bytes that are not escaped. -/
def unreserved (c : Fin 256) : Bool :=
  97 ≤ c && c ≤ 122 || 65 ≤ c && c ≤ 90 || 48 ≤ c && c ≤ 57 || c = 45 || c = 95 || c = 46 || c = 126

def upperhex (digit : Nat) : Fin 256 :=
  Fin.ofNat 256 (if digit < 10 then 48 + digit else 55 + digit)

def unhex (c : Fin 256) : Option Nat :=
  if 48 ≤ c && c ≤ 57 then some (c.val - 48)
  else if 97 ≤ c && c ≤ 102 then some (c.val - 87)
  else if 65 ≤ c && c ≤ 70 then some (c.val - 55)
  else none

/-- One byte of `QueryEscape`. -/
def escapeByte (c : Fin 256) : Text :=
  if c = 32 then [43]
  else if unreserved c then [c]
  else [37, upperhex (c.val / 16), upperhex (c.val % 16)]

/-- `url.QueryEscape` -/
def queryEscape (component : Text) : Text :=
  component.flatMap escapeByte

/-- `QueryUnescape`. -/
def queryUnescape : Text → Option Text
  | [] => some []
  | c :: rest =>
    if c = 37 then
      match rest with
      | high :: low :: rest =>
        (unhex high).bind fun high => (unhex low).bind fun low =>
          (queryUnescape rest).map (Fin.ofNat 256 (16 * high + low) :: ·)
      | _ => none
    else (queryUnescape rest).map ((if c = 43 then 32 else c) :: ·)

/-- The parameters of a query, in order. -/
abbrev Values := List (Text × Text)

def escapePair (pair : Text × Text) : Text :=
  queryEscape pair.1 ++ 61 :: queryEscape pair.2

/-- `Values.Encode` -/
def encode (values : Values) : Text :=
  [38].intercalate ((values.insertionSort (·.1 ≤ ·.1)).map escapePair)

/-- One parameter; a bad one is dropped. -/
def parsePair (piece : Text) : Option (Text × Text) :=
  if 59 ∈ piece ∨ piece = [] then none
  else
    (queryUnescape (piece.takeWhile (· ≠ 61))).bind fun key =>
      (queryUnescape (piece.dropWhile (· ≠ 61)).tail).map fun value => (key, value)

/-- `url.ParseQuery`; a pair that does not parse is skipped. -/
def parseQuery (query : Text) : Values :=
  (query.splitOn 38).filterMap parsePair

/-- `Get` of the query. -/
def firstValue (q : Values) (key : Text) : Text :=
  (q.lookup key).getD []

theorem unreserved_ne : ∀ c : Fin 256, unreserved c → c ≠ 37 ∧ c ≠ 43 := by
  decide +kernel

theorem unhex_upperhex : ∀ digit < 16, unhex (upperhex digit) = some digit := by
  decide +kernel

theorem escapeByte_plain : ∀ c : Fin 256,
    (escapeByte c).all fun part => !([38, 59, 61, 62].contains part) := by
  decide +kernel

/-- What delimits a query and the link around it is escaped. -/
theorem escaped_plain {c : Fin 256} (mem : c ∈ queryEscape component) :
    c ∉ [38, 59, 61, 62] := by
  obtain ⟨byte, _, here⟩ := mem_flatMap.mp mem
  have plain := all_eq_true.mp (escapeByte_plain byte) c here
  rwa [Bool.not_eq_true', ← Bool.not_eq_true, contains_iff_mem] at plain

theorem queryUnescape_cons (plain : c ≠ 37) : queryUnescape (c :: rest) =
    (queryUnescape rest).map ((if c = 43 then 32 else c) :: ·) := by
  rcases rest with _ | ⟨_, _ | ⟨_, _⟩⟩ <;> simp [queryUnescape, plain]

theorem queryUnescape_escapeByte (c : Fin 256) (rest : Text) :
    queryUnescape (escapeByte c ++ rest) = (queryUnescape rest).map (c :: ·) := by
  rw [escapeByte]
  split_ifs with space plain
  · rw [space]
    exact queryUnescape_cons (by decide)
  · obtain ⟨percent, plus⟩ := unreserved_ne c plain
    rw [singleton_append, queryUnescape_cons percent, if_neg plus]
  · have whole : Fin.ofNat 256 (16 * (c.val / 16) + c.val % 16) = c := by
      rw [Nat.div_add_mod]
      exact Fin.ofNat_val_eq_self c
    rw [cons_append, cons_append, singleton_append, queryUnescape, if_pos rfl,
      unhex_upperhex _ (by omega), unhex_upperhex _ (by omega)]
    simp only [Option.bind_some, whole]

theorem queryUnescape_queryEscape (component : Text) :
    queryUnescape (queryEscape component) = some component := by
  induction component with
  | nil => rfl
  | cons c component ih =>
    rw [queryEscape, flatMap_cons, queryUnescape_escapeByte, ← queryEscape, ih]
    rfl

theorem escapePair_plain {c : Fin 256} (mark : c ∈ [38, 59, 62]) (pair : Text × Text) :
    c ∉ escapePair pair := by
  have plain : ∀ component, c ∉ queryEscape component := by
    intro component mem
    apply escaped_plain mem
    simp only [mem_cons] at mark ⊢
    tauto
  rw [escapePair, mem_append, mem_cons]
  rintro (key | rfl | value)
  · exact plain _ key
  · exact absurd mark (by decide)
  · exact plain _ value

theorem parsePair_escaped (pair : Text × Text) : parsePair (escapePair pair) = some pair := by
  have before : ∀ c ∈ queryEscape pair.1, decide (c ≠ 61) = true := by
    intro c mem
    refine decide_eq_true ?_
    rintro rfl
    exact escaped_plain mem (by decide)
  have plain : ¬(59 ∈ escapePair pair ∨ escapePair pair = []) := by
    rintro (inside | empty)
    · exact escapePair_plain (by decide) pair inside
    · simp [escapePair] at empty
  rw [parsePair, if_neg plain, escapePair, takeWhile_append_of_pos before,
    dropWhile_append_of_pos before, takeWhile_cons_of_neg (by decide),
    dropWhile_cons_of_neg (by decide), append_nil, tail_cons, queryUnescape_queryEscape,
    queryUnescape_queryEscape]
  rfl

theorem parseQuery_encode {values : Values} (given : values ≠ []) :
    parseQuery (encode values) = values.insertionSort (·.1 ≤ ·.1) := by
  have back : parsePair ∘ escapePair = some := funext parsePair_escaped
  rw [parseQuery, encode, splitOn_intercalate, filterMap_map, back, filterMap_some]
  · intro piece mem
    obtain ⟨pair, _, rfl⟩ := mem_map.mp mem
    exact escapePair_plain (by decide) pair
  · rw [Ne, map_eq_nil_iff, ← length_eq_zero_iff, length_insertionSort, length_eq_zero_iff]
    exact given

/-- `sort.Search` between two indices that the fuel separates. -/
def search (found : Nat → Bool) : Nat → Nat → Nat → Nat
  | fuel + 1, low, high =>
    if low < high then
      let middle := (low + high) / 2
      if found middle then search found fuel low middle else search found fuel (middle + 1) high
    else low
  | 0, low, _ => low

/-- `sort.SearchStrings`. -/
def searchStrings (items : List Text) (last : Text) : Nat :=
  search (fun index => (items[index]?).any (last ≤ ·)) items.length 0 items.length

/-- The limit, where it is a number. -/
def parseN (number : Text) : Option Int :=
  if number = [] then none
  else Lib.Ip.atoi (String.ofList (number.map fun c => Char.ofNat c.val))

/-- The items behind the last one that was sent. -/
def itemsAfter (items : List Text) (last : Text) : List Text :=
  if last ≠ [] then (items.drop (searchStrings items last)).dropWhile (· ≤ last) else items

/-- `paginate`: a page, and the name it ends with. -/
def paginate (items : List Text) (q : Values) : List Text × Text :=
  let items := itemsAfter items (firstValue q (text "last"))
  match parseN (firstValue q (text "n")) with
  | some n =>
    if n ≤ 0 ∨ items.length ≤ n then (items, [])
    else (items.take n.toNat, (items.take n.toNat).getLastD [])
  | none => (items, [])

/-- The `Link` header of a page. -/
def linkNext (base n last : Text) : Text :=
  let q := (if n ≠ [] then [(text "n", n)] else []) ++ [(text "last", last)]
  text "<" ++ base ++ text "?" ++ encode q ++ text ">; rel=\"next\""

/-- The query of a link to a known base, as the server gets it back. -/
def linkQuery (base link : Text) : Text :=
  (link.drop (base.length + 2)).takeWhile (· ≠ 62)

/-- The pages of a listing, following every link; `none` when the fuel runs out. -/
def listing (base : Text) (items : List Text) : Nat → Text → Option (List (List Text))
  | 0, _ => none
  | fuel + 1, query =>
    let q := parseQuery query
    let (page, next) := paginate items q
    if next = [] then some [page]
    else
      (listing base items fuel
        (linkQuery base (linkNext base (firstValue q (text "n")) next))).map (page :: ·)

theorem linkQuery_linkNext (base : Text) (counted : n ≠ []) :
    linkQuery base (linkNext base n last) = encode [(text "n", n), (text "last", last)] := by
  have front : (text "<" ++ base ++ text "?").length = base.length + 2 := by
    simp [text]
  have sorted : insertionSort (·.1 ≤ ·.1) [(text "n", n), (text "last", last)] =
      [(text "last", last), (text "n", n)] := rfl
  have plain : ∀ c ∈ encode [(text "n", n), (text "last", last)], decide (c ≠ 62) = true := by
    intro c mem
    refine decide_eq_true ?_
    rintro rfl
    have inside : 62 ∈ escapePair (text "last", last) ++ 38 :: escapePair (text "n", n) := by
      simpa [encode, sorted, intercalate] using mem
    rw [mem_append, mem_cons] at inside
    rcases inside with before | same | behind
    · exact escapePair_plain (by decide) _ before
    · exact absurd same (by decide)
    · exact escapePair_plain (by decide) _ behind
  rw [linkQuery, linkNext, if_pos counted, append_assoc (text "<" ++ base ++ text "?"),
    drop_left' front]
  exact (takeWhile_append_of_pos plain).trans (append_nil _)

theorem firstValue_linkNext (base : Text) (counted : n ≠ []) :
    firstValue (parseQuery (linkQuery base (linkNext base n last))) (text "n") = n ∧
      firstValue (parseQuery (linkQuery base (linkNext base n last))) (text "last") = last := by
  rw [linkQuery_linkNext base counted, parseQuery_encode (cons_ne_nil _ _)]
  exact ⟨rfl, rfl⟩

section Follow

variable {items before rest : List Text} {size : Int} (sorted : items.Pairwise (· < ·))

include sorted

theorem search_before (high_le : high ≤ items.length)
    (passed : ∀ item ∈ items.take low, item ≤ last) : ∀ item ∈ items.take
      (search (fun index => (items[index]?).any (last ≤ ·)) fuel low high), item ≤ last := by
  induction fuel generalizing low high with
  | zero => exact passed
  | succ fuel ih =>
    rw [search]
    dsimp only
    split_ifs with within found
    · exact ih (by omega) passed
    · have inside : (low + high) / 2 < items.length := by omega
      apply ih high_le
      intro item mem
      obtain ⟨index, bound, rfl⟩ := mem_take_iff_getElem.mp mem
      rw [getElem?_eq_getElem inside] at found
      have below : items[(low + high) / 2] < last := by simpa using found
      obtain same | earlier := Nat.eq_or_lt_of_le (Nat.le_of_lt_succ (lt_min_iff.mp bound).1)
      · subst same
        exact below.le
      · exact ((pairwise_iff_getElem.mp sorted _ _ _ inside earlier).trans below).le
    · exact passed

theorem itemsAfter_eq (named : ∀ item ∈ items, item ≠ []) (whole : items = before ++ rest) :
    itemsAfter items (before.getLastD []) = rest := by
  rcases eq_nil_or_concat' before with rfl | ⟨init, last, rfl⟩
  · rw [whole]
    rfl
  have given : last ≠ [] := named last (by simp [whole])
  have passed : ∀ item ∈ items.take (searchStrings items last), item ≤ last :=
    search_before sorted (Nat.le_refl _) (by simp)
  have split := congrArg (dropWhile (· ≤ last)) (take_append_drop (searchStrings items last) items)
  rw [dropWhile_append_of_pos (by simpa using passed)] at split
  rw [getLastD_concat, itemsAfter, if_pos given, split, whole]
  rw [whole, append_assoc, singleton_append, pairwise_append, pairwise_cons] at sorted
  obtain ⟨_, ⟨above, _⟩, below⟩ := sorted
  rw [append_assoc, dropWhile_append_of_pos, singleton_append, dropWhile_cons_of_pos (by simp)]
  · cases rest with
    | nil => rfl
    | cons next rest => exact dropWhile_cons_of_neg (by simpa using above next mem_cons_self)
  · intro item mem
    exact decide_eq_true (below item mem last mem_cons_self).le

theorem listing_from (named : ∀ item ∈ items, item ≠ []) (number : parseN n = some size)
    (positive : 1 ≤ size) (whole : items = before ++ rest) (short : rest.length < fuel)
    (same : firstValue (parseQuery query) (text "n") = n)
    (place : firstValue (parseQuery query) (text "last") = before.getLastD []) :
    ∃ pages, listing base items fuel query = some pages ∧ pages.flatten = rest := by
  have counted : n ≠ [] := by
    rintro rfl
    cases number
  induction fuel generalizing before rest query with
  | zero => exact absurd short (Nat.not_lt_zero _)
  | succ fuel ih =>
    have paged : paginate items (parseQuery query) =
        if size ≤ 0 ∨ rest.length ≤ size then (rest, [])
        else (rest.take size.toNat, (rest.take size.toNat).getLastD []) := by
      rw [paginate, place, itemsAfter_eq sorted named whole, same, number]
    rw [listing, same]
    by_cases final : size ≤ 0 ∨ rest.length ≤ size
    · rw [if_pos final] at paged
      exact ⟨[rest], by rw [paged]; rfl, flatten_singleton⟩
    · rw [if_neg final] at paged
      obtain ⟨init, last, page⟩ : ∃ init last, rest.take size.toNat = init ++ [last] := by
        refine (eq_nil_or_concat' _).resolve_left fun empty => ?_
        have none := congrArg length empty
        rw [length_take, length_nil] at none
        omega
      have split : rest = init ++ [last] ++ rest.drop size.toNat := by
        rw [← page, take_append_drop]
      have given : last ≠ [] := named last (by rw [whole, split]; simp)
      rw [page, getLastD_concat] at paged
      obtain ⟨again, onward⟩ := @firstValue_linkNext n last base counted
      obtain ⟨pages, led, all⟩ := @ih (before ++ (init ++ [last])) (rest.drop size.toNat)
        (linkQuery base (linkNext base n last)) (by rw [append_assoc, ← split, whole])
        (by rw [length_drop]; omega) again (by rw [onward, ← append_assoc, getLastD_concat])
      rw [paged]
      dsimp only
      rw [if_neg given, led]
      refine ⟨_, rfl, ?_⟩
      rw [flatten_cons, all, ← split]

end Follow

/-- A listing of names follows its links to the end and gives every name once, in order. -/
theorem listing_complete (base first : Text) (items : List Text) (size : Int)
    (sorted : items.Pairwise (· < ·)) (named : ∀ item ∈ items, item ≠ [])
    (number : parseN (firstValue (parseQuery first) (text "n")) = some size) (positive : 1 ≤ size)
    (start : firstValue (parseQuery first) (text "last") = []) :
    ∃ pages, listing base items (items.length + 1) first = some pages ∧ pages.flatten = items :=
  listing_from sorted named number positive (nil_append items).symm (Nat.lt_succ_self _) rfl start

theorem listing_three :
    ∃ pages, listing (text "/v2/_catalog") [text "a&b", text "a=", text "z"] 4 (text "n=1") =
      some pages ∧ pages.flatten = [text "a&b", text "a=", text "z"] :=
  listing_complete _ _ _ 1 (by decide +kernel) (by decide +kernel) (by decide +kernel)
    (by decide) (by decide +kernel)

/-- The item of a page of one cannot be told from the mark of the last page. -/
theorem listing_unnamed :
    listing (text "/v2/_catalog") [[], text "a"] 3 (text "n=1") = some [[[]]] := by
  decide +kernel

end Cornus.Registry
