/-
  Numbers as text: whole numbers, and decimal numbers of any precision.
  A whole number is written without leading zeros. Two readers take more than is written: a literal
  may carry a sign and, after its first digit, underscores; an exponent may carry a sign.
  A decimal number is `unscaled · 10^(-scale)`. The digits that were written are kept, so `1.0` and
  `1.00` are two values of the type; they are `alike`, that is, they have one `normal` form. Nothing
  here expands a power of ten. The scale of a `Decimal` is a signed number of sixty-four bits; a
  normal form, which may need one more, is only `Scaled`.
-/

namespace PeerRecords

namespace Numeral

/-- The decimal digits of a number. -/
def digits (n : Nat) : List Char := Nat.toDigits 10 n

/-- The number that a non-empty run of ASCII digits spells. -/
def nat? (cs : List Char) : Option Nat :=
  if cs ≠ [] ∧ cs.all Char.isDigit then some (Nat.ofDigitChars 10 cs 0) else none

/-- A sign before a negative number, and the digits of its size. -/
def text (i : Int) : List Char :=
  if i < 0 then '-' :: digits i.natAbs else digits i.natAbs

/-- The number spelled by a digit followed by digits and underscores; underscores count nothing. -/
def grouped? : List Char → Option Nat
  | [] => none
  | c :: cs =>
    if c ≠ '_' ∧ (c :: cs).all (fun d => d.isDigit || d == '_') then
      some (Nat.ofDigitChars 10 ((c :: cs).filter (· != '_')) 0)
    else none

/-- An integer literal: at most one sign, then grouped digits. -/
def literal? : List Char → Option Int
  | '-' :: cs => (grouped? cs).map fun n => -(n : Int)
  | '+' :: cs => (grouped? cs).map Int.ofNat
  | cs => (grouped? cs).map Int.ofNat

/-- At most one sign, then digits. -/
def signed? : List Char → Option Int
  | '-' :: cs => (nat? cs).map fun n => -(n : Int)
  | '+' :: cs => (nat? cs).map Int.ofNat
  | cs => (nat? cs).map Int.ofNat

theorem nat?_digits (n : Nat) : nat? (digits n) = some n := by
  have hd : ∀ c ∈ Nat.toDigits 10 n, c.isDigit := fun c h =>
    Nat.isDigit_of_mem_toDigits (by decide : 0 < 10) (by decide) h
  have h : Nat.toDigits 10 n ≠ [] ∧ (Nat.toDigits 10 n).all Char.isDigit :=
    ⟨Nat.toDigits_ne_nil, List.all_eq_true.2 hd⟩
  rw [nat?, digits, if_pos h, Nat.ofDigitChars_ten_toDigits]

end Numeral

/-- The number `unscaled · 10^(-scale)`. -/
structure Scaled where
  unscaled : Int
  scale : Int
deriving DecidableEq, Repr

namespace Scaled

/-- Takes at most `fuel` trailing zeros off `n`, each lowering the scale by one. -/
def dropZeros : Nat → Nat → Int → Nat × Int
  | 0, n, s => (n, s)
  | fuel + 1, n, s => if n % 10 = 0 then dropZeros fuel (n / 10) (s - 1) else (n, s)

/-- The form without trailing zeros; zero has scale zero. -/
def normal (d : Scaled) : Scaled :=
  if d.unscaled = 0 then ⟨0, 0⟩
  else
    let (n, s) := dropZeros d.unscaled.natAbs d.unscaled.natAbs d.scale
    ⟨d.unscaled.sign * n, s⟩

/-- A number this much below one is written with an exponent: more zeros than this between the
point and the first digit. -/
def leadingZeros : Int := 5

/-- A number with more trailing zeros than this is written with an exponent. -/
def trailingZeros : Int := 15

/-- The digits with the point before the last `scale` of them. -/
def pointed (ds : List Char) (scale : Nat) : List Char :=
  let padded := List.replicate (scale + 1 - ds.length) '0' ++ ds
  let whole := padded.length - scale
  padded.take whole ++ '.' :: padded.drop whole

/-- One digit before the point, the others after it, no point without others. -/
def scientific (ds : List Char) (exponent : Nat) : List Char :=
  let mantissa := match ds with
    | d :: e :: rest => d :: '.' :: e :: rest
    | short => short
  mantissa ++ ['E', '-'] ++ Numeral.digits exponent

/-- The digits of a number other than zero, in the shortest of three layouts. -/
def magnitudeText (ds : List Char) (scale : Int) : List Char :=
  if scale - ds.length > leadingZeros then scientific ds (scale - ds.length + 1).toNat
  else if -scale > trailingZeros then ds ++ ['e', '+'] ++ Numeral.digits (-scale).toNat
  else if 0 < scale then pointed ds scale.toNat
  else ds ++ List.replicate (-scale).toNat '0'

/-- The text of a number; all its digits are kept, and zero is a single digit. -/
def text (d : Scaled) : List Char :=
  if d.unscaled = 0 then ['0']
  else
    let body := magnitudeText (Numeral.digits d.unscaled.natAbs) d.scale
    if d.unscaled < 0 then '-' :: body else body

/-- The first scale too large for 64 bits: the 63rd power of two. -/
def scaleBound : Int := 9223372036854775808

end Scaled

/-- A decimal number of a document. -/
structure Decimal extends Scaled where
  scale_fits : -Scaled.scaleBound ≤ scale ∧ scale < Scaled.scaleBound
deriving DecidableEq, Repr

namespace Decimal

instance : Inhabited Decimal := ⟨⟨⟨0, 0⟩, by decide⟩⟩

/-- Equality of the numbers. -/
def alike (a b : Decimal) : Bool := decide (a.normal = b.normal)

/-- The first exponent too large for 128 bits: the 127th power of two. -/
def exponentBound : Int := 170141183460469231731687303715884105728

/-- The exponent after its letter: a signed number of at most 128 bits, zero without a letter. -/
def exponent? : List Char → Option Int
  | [] => some 0
  | _ :: cs =>
    (Numeral.signed? cs).filter fun e => decide (-exponentBound ≤ e ∧ e < exponentBound)

/-- Reads digits with at most one point, and an exponent after the first `e` or `E`. -/
def parse? (cs : List Char) : Option Decimal := do
  let isMark (c : Char) : Bool := c == 'e' || c == 'E'
  let mantissa := cs.takeWhile fun c => !isMark c
  let exponent ← exponent? (cs.dropWhile fun c => !isMark c)
  let whole := mantissa.takeWhile (· != '.')
  let fraction := (mantissa.dropWhile (· != '.')).drop 1
  let unscaled ← Numeral.literal? (whole ++ fraction)
  let scale := ((fraction.filter (· != '_')).length : Int) - exponent
  if h : -Scaled.scaleBound ≤ scale ∧ scale < Scaled.scaleBound then some ⟨⟨unscaled, scale⟩, h⟩
  else none

end Decimal

end PeerRecords
