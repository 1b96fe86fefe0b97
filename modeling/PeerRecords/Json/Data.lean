import PeerRecords.Json.Reader

/-
  JSON taken as data, before anything is known of its shape.
  All strings and names must decode, nesting is limited, and a number must be one that a double
  can hold; of a field that is there twice the last one counts.
  A number is taken in two steps: as many of its digits as sixty-four bits hold, then a power of
  ten; the digits and the power are rounded to doubles and multiplied (`Number.isFinite`).
-/

namespace PeerRecords.Json

namespace Number

/-- The number `s` with digits added to its end while sixty-four bits hold it, and the digits
left over. -/
def takeDigits : Nat → List Char → Nat × List Char
  | s, [] => (s, [])
  | s, d :: ds =>
    let n := Nat.ofDigitChars 10 [d] s
    if n < UInt64.size then takeDigits n ds else (s, d :: ds)

/-- The digits that count, and the power of ten that they are taken at before the exponent. -/
def significant (x : Number) : Nat × Int :=
  let (s, whole) := takeDigits 0 x.whole
  let (s, fraction) := takeDigits s x.fraction
  (s, (whole.length : Int) - (x.fraction.length - fraction.length : Nat))

/-- The nearest number with fifty-three significant bits; of two, the even one. -/
def roundToDouble (n : Nat) : Nat :=
  if n < 1 <<< 53 then n
  else
    let unit := 1 <<< (n.log2 - 52)
    let q := n / unit
    let r := n % unit
    if 2 * r > unit ∨ (2 * r = unit ∧ q % 2 = 1) then (q + 1) * unit else q * unit

/-- Whether the product of `s` and `10^e`, each rounded to a double, rounds to a double. -/
def scaledIsFinite (s : Nat) (e : Int) : Bool :=
  if e > 308 then false
  else if e < 0 then true
  else decide (roundToDouble s * roundToDouble (Nat.pow 10 e.toNat) < (1 <<< 1024) - (1 <<< 970))

/-- Whether a double can hold the number. -/
def isFinite (x : Number) : Bool :=
  let (s, e) := x.significant
  if s = 0 then true
  else match x.exponent with
    | none => scaledIsFinite s e
    | some (negative, ds) =>
      let n := Nat.ofDigitChars 10 ds 0
      if n < 1 <<< 31 then scaledIsFinite s (if negative then e - n else e + n) else negative

end Number

mutual

/-- The data of a value; `n` more arrays and objects may be opened. -/
def data? (n : Nat) : Json → Option Json
  | .null => some .null
  | .bool b => some (.bool b)
  | .number x => if x.isFinite then some (.number x) else none
  | .string s => s.map ofString
  | .array items =>
    match n with
    | n + 1 => (dataItems? n items).map .array
    | 0 => none
  | .object fields =>
    match n with
    | n + 1 => (dataFields? n fields).map .object
    | 0 => none
termination_by structural j => j

/-- The data of each item. -/
def dataItems? (n : Nat) : List Json → Option (List Json)
  | [] => some []
  | j :: js => do
    let d ← data? n j
    let ds ← dataItems? n js
    some (d :: ds)
termination_by structural js => js

/-- The data of each field that is not there again. -/
def dataFields? (n : Nat) : List (Option String × Json) → Option (List (Option String × Json))
  | [] => some []
  | (k, j) :: fs => do
    let name ← k
    let d ← data? n j
    let rest ← dataFields? n fs
    some (if rest.any (fun f => f.1 == some name) then rest else (some name, d) :: rest)
termination_by structural fs => fs

end

end PeerRecords.Json
