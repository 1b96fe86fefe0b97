import PeerRecords.Bytes

/-
  Identifiers of requests: 128 bits.
  They are written as thirty-two lower-case digits in groups of 8, 4, 4, 4 and 12; reading also
  takes the digits alone, the groups in braces or after `urn:uuid:`, and either case.
-/

namespace PeerRecords

/-- An identifier of 128 bits. -/
structure Uuid where
  bits : BitVec 128
deriving DecidableEq, Repr, Inhabited

namespace Uuid

/-- The lengths of the groups of digits. -/
def groupLengths : List Nat := [8, 4, 4, 4, 12]

/-- A list cut into pieces of the given lengths. -/
def cut : List Nat → List Char → List (List Char)
  | [], _ => []
  | n :: ns, cs => cs.take n :: cut ns (cs.drop n)

/-- The text of an identifier. -/
def text (u : Uuid) : String :=
  let digits := Hex.encode (Bytes.bigEndian 16 u.bits.toNat)
  String.ofList (['-'].intercalate (cut groupLengths digits))

/-- The identifier of thirty-two digits. -/
def ofDigits? (cs : List Char) : Option Uuid := (Hex.number? cs).map fun n => ⟨BitVec.ofNat 128 n⟩

/-- The identifier of digits in groups. -/
def ofGroups? (cs : List Char) : Option Uuid :=
  let groups := cs.splitOn '-'
  if groups.map List.length = groupLengths then ofDigits? groups.flatten else none

/-- What may stand before the groups, in either case. -/
def scheme : List Char := ['u', 'r', 'n', ':', 'u', 'u', 'i', 'd', ':']

/-- What follows the scheme. -/
def afterScheme? (cs : List Char) : Option (List Char) :=
  if (cs.take scheme.length).map Char.toLower = scheme then some (cs.drop scheme.length) else none

/-- Reads an identifier in any of its forms. -/
def parse? (s : String) : Option Uuid :=
  match afterScheme? s.toList with
  | some cs => ofGroups? cs
  | none =>
    match s.toList with
    | '\x7b' :: cs => if cs.getLast? = some '\x7d' then ofGroups? cs.dropLast else none
    | cs => if cs.length = 32 then ofDigits? cs else ofGroups? cs

end Uuid

end PeerRecords
