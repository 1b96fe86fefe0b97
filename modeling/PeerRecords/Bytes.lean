/-
  Numbers as bytes, and bytes as text.
  A number is written most significant byte first. A length takes a fixed number of bytes; an
  integer takes the fewest bytes whose two's complement can hold it, at least one.
  In hexadecimal a byte is written with two lower-case digits; reading takes either case.
-/

namespace PeerRecords

namespace Bytes

/-- A number as `n` bytes, most significant first; what does not fit is cut off. -/
def bigEndian : Nat → Nat → List UInt8
  | 0, _ => []
  | n + 1, value => bigEndian n (value / 256) ++ [UInt8.ofNat value]

/-- A length as eight bytes. -/
def length (n : Nat) : List UInt8 := bigEndian 8 n

/-- The fewest bits that hold a number. -/
def bitLength (n : Nat) : Nat := if n = 0 then 0 else n.log2 + 1

/-- The fewest bytes that hold a number and leave the first bit unset. -/
def unsignedBytes (n : Nat) : List UInt8 := bigEndian (bitLength n / 8 + 1) n

/-- An integer in two's complement, in the fewest bytes: a negative one is the complement of the
number one short of its size. -/
def signed : Int → List UInt8
  | .ofNat n => unsignedBytes n
  | .negSucc n => (unsignedBytes n).map (~~~ ·)

@[simp] theorem length_bigEndian (n value : Nat) : (bigEndian n value).length = n := by
  induction n generalizing value with
  | zero => rfl
  | succ n ih => rw [bigEndian, List.length_append, ih, List.length_singleton]

end Bytes

namespace Hex

/-- The lower-case digit of a number below sixteen. -/
def digit (n : Nat) : Char := Nat.digitChar n

/-- The value of a hexadecimal digit, of either case. -/
def value? (c : Char) : Option Nat :=
  if '0' ≤ c ∧ c ≤ '9' then some (c.toNat - '0'.toNat)
  else if 'a' ≤ c ∧ c ≤ 'f' then some (c.toNat - 'a'.toNat + 10)
  else if 'A' ≤ c ∧ c ≤ 'F' then some (c.toNat - 'A'.toNat + 10)
  else none

/-- Two digits for each byte. -/
def encode (bytes : List UInt8) : List Char :=
  bytes.flatMap fun b => [digit (b.toNat / 16), digit (b.toNat % 16)]

/-- Reads what `encode` writes, in either case. -/
def decode? : List Char → Option (List UInt8)
  | [] => some []
  | [_] => none
  | h :: l :: rest => do
    let x ← value? h
    let y ← value? l
    let bytes ← decode? rest
    some (UInt8.ofNat (16 * x + y) :: bytes)

/-- The number that a run of digits spells, most significant digit first. -/
def number? (cs : List Char) : Option Nat :=
  cs.foldlM (fun n c => (value? c).map (16 * n + ·)) 0

end Hex

end PeerRecords
