import PeerRecords.Decimal
import PeerRecords.Bytes
import PeerRecords.PeerId

/-
  The values that parts of a network address may hold, as predicates on their characters:
  dotted and colon-separated internet addresses, ports, and host names.
  No such value holds a `/`, so the parts of an address never run together.
-/

namespace PeerRecords.Multiaddr

/-- A decimal number below 256, at most three digits, without leading zeros. -/
def isOctet (cs : List Char) : Bool :=
  decide (cs.length ≤ 3) && (cs.head? != some '0' || cs.length == 1)
    && (Numeral.nat? cs).any (· < 256)

/-- Four octets between points. -/
def isIp4 (cs : List Char) : Bool :=
  let octets := cs.splitOn '.'
  octets.length == 4 && octets.all isOctet

/-- One to four hexadecimal digits. -/
def isGroup (cs : List Char) : Bool :=
  decide (0 < cs.length ∧ cs.length ≤ 4) && cs.all fun c => (Hex.value? c).isSome

/-- How many groups the pieces stand for: one each, two for a dotted address as the last. -/
def groupCount? (dotted : Bool) : List (List Char) → Option Nat
  | [] => some 0
  | [last] => if isGroup last then some 1 else if dotted && isIp4 last then some 2 else none
  | piece :: pieces => if isGroup piece then (groupCount? dotted pieces).map (· + 1) else none

/-- The groups between colons; none at all in the empty text. -/
def groups? (dotted : Bool) (cs : List Char) : Option Nat :=
  if cs.isEmpty then some 0 else groupCount? dotted (cs.splitOn ':')

/-- The texts before and after the first double colon. -/
def splitAtDoubleColon : List Char → Option (List Char × List Char)
  | [] => none
  | ':' :: ':' :: rest => some ([], rest)
  | c :: rest => (splitAtDoubleColon rest).map fun p => (c :: p.1, p.2)

/-- Eight groups, or fewer with one double colon for at least one group of zeros; the last two
may be written as a dotted address. -/
def isIp6 (cs : List Char) : Bool :=
  match splitAtDoubleColon cs with
  | none => groups? true cs == some 8
  | some (front, back) =>
    match groups? false front, groups? true back with
    | some m, some n => decide (m + n ≤ 7)
    | _, _ => false

/-- A number below 65536 in digits, which may have a plus sign and leading zeros. -/
def isPort (cs : List Char) : Bool :=
  let number := match cs with
    | '+' :: rest => rest
    | cs => cs
  (Numeral.nat? number).any (· < 65536)

/-- A non-empty run of ASCII letters, digits, hyphens and points. -/
def isHostName (cs : List Char) : Bool :=
  !cs.isEmpty && cs.all fun c => c.isAlphanum || c == '-' || c == '.'

end PeerRecords.Multiaddr
