import Mathlib.Data.List.Basic

/-!
# Shell patterns

`path.Match`: a pattern is cut at its stars into chunks, and each chunk is
matched at the first place where it fits.  A malformed pattern is reported also
where the text cannot match.  The loops run on fuel that the length of the
pattern bounds.
-/

namespace Cornus.Lib.Glob

/-- `getEsc`: one character of a class, which is not the last of the chunk. -/
def getEsc : List Char → Option (Char × List Char)
  | [] => none
  | '-' :: _ => none
  | ']' :: _ => none
  | ['\\'] => none
  | '\\' :: c :: rest => if rest = [] then none else some (c, rest)
  | c :: rest => if rest = [] then none else some (c, rest)

/-- The ranges of a class, behind its bracket: whether one holds the character,
and the rest of the chunk. -/
def classRanges (c : Char) : Nat → Bool → Bool → List Char → Option (Bool × List Char)
  | 0, _, _, _ => none
  | _ + 1, true, hit, ']' :: rest => some (hit, rest)
  | fuel + 1, _, hit, chunk => do
    let (low, chunk) ← getEsc chunk
    let (high, chunk) ←
      match chunk with
      | '-' :: rest => getEsc rest
      | _ => some (low, chunk)
    classRanges c fuel true (hit || (low ≤ c && c ≤ high)) chunk

/-- The loop of `matchChunk`; after a failure the chunk is only checked. -/
def matchChunkFrom : Nat → Bool → List Char → List Char → Option (Option (List Char))
  | 0, _, _, _ => none
  | _ + 1, failed, [], text => some (if failed then none else some text)
  | fuel + 1, failed, '[' :: chunk, text => do
    let failed := failed || text.isEmpty
    let (negated, chunk) :=
      match chunk with
      | '^' :: rest => (true, rest)
      | _ => (false, chunk)
    let (hit, chunk) ← classRanges (text.headD 'a') (chunk.length + 1) false false chunk
    matchChunkFrom fuel (failed || hit == negated) chunk (text.drop 1)
  | fuel + 1, failed, '?' :: chunk, text =>
    matchChunkFrom fuel (failed || text.isEmpty || text.head? == some '/') chunk (text.drop 1)
  | _ + 1, _, ['\\'], _ => none
  | fuel + 1, failed, '\\' :: c :: chunk, text =>
    matchChunkFrom fuel (failed || text.head? != some c) chunk (text.drop 1)
  | fuel + 1, failed, c :: chunk, text =>
    matchChunkFrom fuel (failed || text.head? != some c) chunk (text.drop 1)

/-- `matchChunk`: the text behind a match; the outer `none` is a malformed
chunk. -/
def matchChunk (chunk text : List Char) : Option (Option (List Char)) :=
  matchChunkFrom (chunk.length + 1) false chunk text

/-- The chunk up to the next star outside of a class, and the rest. -/
def scanTo : Bool → List Char → List Char × List Char
  | _, [] => ([], [])
  | inRange, '\\' :: c :: rest =>
    let (chunk, left) := scanTo inRange rest
    ('\\' :: c :: chunk, left)
  | inRange, c :: rest =>
    if c = '*' ∧ inRange = false then ([], c :: rest)
    else
      let inRange := c = '[' || (inRange && c != ']')
      let (chunk, left) := scanTo inRange rest
      (c :: chunk, left)

def scanChunk (pattern : List Char) : Bool × List Char × List Char :=
  (pattern.head? == some '*', scanTo false (pattern.dropWhile (· == '*')))

/-- A star skips characters other than the slash until the chunk matches; the
last chunk has to match at the end. -/
def skipTo (chunk : List Char) (last : Bool) : List Char → Option (Option (List Char))
  | [] => some none
  | c :: text =>
    if c = '/' then some none
    else
      match matchChunk chunk text with
      | none => none
      | some none => skipTo chunk last text
      | some (some left) =>
        if last && !left.isEmpty then skipTo chunk last text
        else some (some left)

/-- The rest of a pattern that does not match is well formed. -/
def checkRest : Nat → List Char → Option Bool
  | 0, _ => none
  | _ + 1, [] => some false
  | fuel + 1, pattern => do
    let (_, chunk, rest) := scanChunk pattern
    let _ ← matchChunk chunk []
    checkRest fuel rest

def matchFrom : Nat → List Char → List Char → Option Bool
  | 0, _, _ => none
  | _ + 1, [], text => some text.isEmpty
  | fuel + 1, pattern, text => do
    let (star, chunk, rest) := scanChunk pattern
    if star && chunk.isEmpty then some (!text.contains '/')
    else
      let placed ← matchChunk chunk text
      match placed.filter fun left => left.isEmpty || !rest.isEmpty with
      | some left => matchFrom fuel rest left
      | none =>
        let skipped ← if star then skipTo chunk rest.isEmpty text else some none
        match skipped with
        | some left => matchFrom fuel rest left
        | none => checkRest fuel rest

/-- `path.Match`; `none` is a malformed pattern. -/
def pathMatch (pattern text : List Char) : Option Bool :=
  matchFrom (pattern.length + 1) pattern text

example : pathMatch "*.internal".toList "a.b.internal".toList = some true := by
  decide

example : pathMatch "[a-c]?\\*".toList "bx*".toList = some true := by decide

example : pathMatch "x[".toList "".toList = none := by decide

end Cornus.Lib.Glob
