import PeerRecords.Decimal

/-
  JSON values.
  Fields of an object keep their order and may repeat: what a repeated field means is for the
  reader to say. A text may be one that decodes to no string (a lone surrogate, ill-formed bytes);
  it is an error only for a reader that needs it. A number keeps its digits.
-/

namespace PeerRecords

namespace Json

/-- A number as it is written: sign, digits before and after the point (none for no point), and
the exponent's sign and digits. -/
structure Number where
  negative : Bool
  whole : List Char
  fraction : List Char
  exponent : Option (Bool × List Char)
deriving DecidableEq, Repr

/-- The number `n` in plain digits. -/
def Number.ofNat (n : Nat) : Number := ⟨false, Numeral.digits n, [], none⟩

/-- The value of a number in plain digits, without sign, point or exponent. -/
def Number.nat? (x : Number) : Option Nat :=
  if x.negative || !x.fraction.isEmpty || x.exponent.isSome then none else Numeral.nat? x.whole

/-- The value of a number in plain digits after at most a minus sign. -/
def Number.int? (x : Number) : Option Int :=
  if x.fraction.isEmpty && x.exponent.isNone then
    (Numeral.nat? x.whole).map fun n => if x.negative then -(n : Int) else n
  else none

end Json

/-- A JSON value. -/
inductive Json where
  | null
  | bool (b : Bool)
  | number (x : Json.Number)
  | string (s : Option String)
  | array (items : List Json)
  | object (fields : List (Option String × Json))

namespace Json

instance : Inhabited Json := ⟨.null⟩

/-- A string value. -/
def ofString (s : String) : Json := .string (some s)

/-- A number in plain digits. -/
def ofNat (n : Nat) : Json := .number (.ofNat n)

/-- An array of bytes as numbers. -/
def ofBytes (bytes : List UInt8) : Json := .array (bytes.map fun b => ofNat b.toNat)

/-- An object with fields in order. -/
def ofFields (fields : List (String × Json)) : Json :=
  .object (fields.map fun f => (some f.1, f.2))

end Json

end PeerRecords
