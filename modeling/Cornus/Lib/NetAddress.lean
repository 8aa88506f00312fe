import Cornus.Lib.Strings

/-!
# Network addresses

`net.IP` and `net.IPNet`.  An address is its bytes, four or sixteen of them; the
parser gives sixteen, with an IPv4 address behind the prefix of the mapped ones,
and the comparisons take both forms of an IPv4 address for the same.
-/

namespace Cornus.Lib

abbrev Ip := List UInt8

namespace Ip

def mapped : Ip :=
  List.replicate 10 0 ++ [255, 255]

def to4 (ip : Ip) : Option Ip :=
  if ip.length = 4 then some ip
  else if ip.length = 16 ∧ ip.take 12 = mapped then some (ip.drop 12)
  else none

def same (ip other : Ip) : Bool :=
  if ip.length = other.length then ip = other
  else if ip.length = 4 ∧ other.length = 16 then
    other.take 12 = mapped ∧ other.drop 12 = ip
  else if ip.length = 16 ∧ other.length = 4 then
    ip.take 12 = mapped ∧ ip.drop 12 = other
  else false

def digitsValue (base : Nat) (digit : Char → Nat) (digits : List Char) : Nat :=
  digits.foldl (fun value c => base * value + digit c) 0

/-- `dtoi` on a whole text, up to a limit. -/
def dtoi (limit : Nat) (digits : List Char) : Option Nat :=
  let value := digitsValue 10 (fun c => c.toNat - 48) digits
  if digits ≠ [] ∧ digits.all Char.isDigit ∧ value ≤ limit then some value
  else none

def atoi (text : String) : Option Int :=
  let (negative, digits) :=
    match text.toList with
    | '-' :: digits => (true, digits)
    | '+' :: digits => (false, digits)
    | digits => (false, digits)
  let limit := if negative then 2 ^ 63 else 2 ^ 63 - 1
  (dtoi limit digits).map fun value =>
    if negative then -(value : Int) else value

def parseOctet (digits : List Char) : Option Nat :=
  if digits.head? = some '0' ∧ digits.length ≠ 1 then none
  else dtoi 255 digits

def parseFields (text : List Char) : Option Ip :=
  let fields := (text.splitOnP (· == '.')).mapM parseOctet
  match fields with
  | some [a, b, c, d] => some ([a, b, c, d].map UInt8.ofNat)
  | _ => none

def isHex (c : Char) : Bool :=
  c.isDigit || ('a' ≤ c && c ≤ 'f') || ('A' ≤ c && c ≤ 'F')

def hexDigit (c : Char) : Nat :=
  if c.isDigit then c.toNat - 48
  else if 'a' ≤ c then c.toNat - 87
  else c.toNat - 55

/-- The loop of `parseIPv6`: the bytes in front of the ellipsis, if it was seen,
and the bytes read since.  The fuel is the number of groups that fit. -/
def parseGroups : Nat → Option Ip → Ip → List Char → Option (Option Ip × Ip)
  | 0, _, _, _ => none
  | fuel + 1, front, bytes, text =>
    let digits := text.takeWhile isHex
    let rest := text.dropWhile isHex
    let group := digitsValue 16 hexDigit digits
    if digits = [] ∨ 4 < digits.length then none
    else if rest.head? = some '.' then
      let before := (front.getD []).length + bytes.length
      if (front = none ∧ before ≠ 12) ∨ 12 < before then none
      else (parseFields text).map fun last => (front, bytes ++ last)
    else
      let bytes := bytes ++ [UInt8.ofNat (group / 256), UInt8.ofNat group]
      match rest with
      | [] => some (front, bytes)
      | [':'] => none
      | ':' :: ':' :: more =>
        match front, more with
        | some _, _ => none
        | none, [] => some (some bytes, [])
        | none, _ => parseGroups fuel (some bytes) [] more
      | ':' :: more => parseGroups fuel front bytes more
      | _ => none

def parseV6 (text : List Char) : Option Ip :=
  let parsed :=
    match text with
    | [':', ':'] => some (some [], [])
    | ':' :: ':' :: rest => parseGroups 8 (some []) [] rest
    | _ => parseGroups 8 none [] text
  match parsed with
  | none => none
  | some (none, bytes) => if bytes.length = 16 then some bytes else none
  | some (some front, bytes) =>
    let used := front.length + bytes.length
    if used < 16 then some (front ++ List.replicate (16 - used) 0 ++ bytes)
    else none

/-- `net.ParseIP`, which refuses zones. -/
def parse (text : String) : Option Ip :=
  let chars := text.toList
  if chars.contains '%' then none
  else
    match chars.find? fun c => c = '.' || c = ':' with
    | some '.' => (parseFields chars).map (mapped ++ ·)
    | some ':' => parseV6 chars
    | _ => none

def groups : Ip → List Nat
  | high :: low :: rest => (256 * high.toNat + low.toNat) :: groups rest
  | _ => []

variable (fields : List Nat)

/-- The first longest run of at least two zero groups: where it starts, and its
length. -/
def zeroRun : Nat × Nat :=
  (List.range fields.length).foldl (fun best start =>
    let size := ((fields.drop start).takeWhile (· == 0)).length
    if 2 ≤ size ∧ best.2 < size then (start, size) else best) (0, 0)

def hexText : String :=
  ":".intercalate (fields.map fun field =>
    String.ofList (Nat.toDigits 16 field))

def text (ip : Ip) : String :=
  match ip.to4 with
  | some bytes => ".".intercalate (bytes.map fun byte => toString byte.toNat)
  | none =>
    if ip = [] then "<nil>"
    else if ip.length = 16 then
      let fields := groups ip
      let (start, size) := zeroRun fields
      if size = 0 then hexText fields
      else
        hexText (fields.take start) ++ "::" ++ hexText (fields.drop (start + size))
    else
      "?" ++ String.ofList (ip.flatMap fun byte =>
        [Nat.digitChar (byte.toNat / 16), Nat.digitChar (byte.toNat % 16)])

end Ip

structure IpNet where
  ip : Ip
  mask : Ip
  deriving DecidableEq

namespace IpNet

/-- `CIDRMask`: the byte of a mask of this length that has `index` bytes in
front of it. -/
def maskByte (bits index : Nat) : UInt8 :=
  UInt8.ofNat (256 - 2 ^ (8 - min 8 (bits - 8 * index)))

def cidrMask (bits size : Nat) : Ip :=
  (List.range size).map (maskByte bits)

def masked (ip mask : Ip) : Ip :=
  List.zipWith (· &&& ·) ip mask

def parseCidr (text : String) : Option IpNet := do
  let chars := text.toList
  let addr := chars.takeWhile (· != '/')
  let length := chars.dropWhile (· != '/')
  if length = [] then none
  else
    let ip ← Ip.parse (String.ofList addr)
    let isV4 := !addr.contains ':'
    let size := if isV4 then 4 else 16
    let bits ← Ip.dtoi (8 * size) (length.drop 1)
    let mask := cidrMask bits size
    return ⟨masked (if isV4 then ip.drop 12 else ip) mask, mask⟩

def numberAndMask (net : IpNet) : Option (Ip × Ip) :=
  match net.ip.to4 with
  | some ip =>
    if net.mask.length = 4 then some (ip, net.mask)
    else if net.mask.length = 16 then some (ip, net.mask.drop 12)
    else none
  | none =>
    if net.ip.length = 16 ∧ net.mask.length = 16 then some (net.ip, net.mask)
    else none

def contains (net : IpNet) (ip : Ip) : Bool :=
  let ip := ip.to4.getD ip
  match net.numberAndMask with
  | none => ip = []
  | some (number, mask) =>
    ip.length = number.length ∧ masked number mask = masked ip mask

end IpNet

end Cornus.Lib
