import PeerRecords.Json.Basic

/-
  Readers of JSON values by shape: a value of the wrong shape is `none`, nothing is converted.
  A reader that goes into arrays and objects takes the number of levels that may still be opened.
  A record is an object with known fields, or an array of its fields in order.
-/

namespace PeerRecords.Json

/-- How many arrays and objects a document may have around a value. -/
def nestingLimit : Nat := 127

/-- A string. -/
def asString? : Json → Option String
  | .string s => s
  | _ => none

/-- A truth value. -/
def asBool? : Json → Option Bool
  | .bool b => some b
  | _ => none

/-- A number in plain digits below the bound. -/
def asNat? (bound : Nat) : Json → Option Nat
  | .number x => x.nat?.filter fun n => decide (n < bound)
  | _ => none

/-- A number of sixty-four bits. -/
def asNat64? (j : Json) : Option Nat := asNat? UInt64.size j

/-- A byte. -/
def asByte? (j : Json) : Option UInt8 := (asNat? 256 j).map UInt8.ofNat

/-- An array of bytes. -/
def asBytes? : Nat → Json → Option (List UInt8)
  | _ + 1, .array items => items.mapM asByte?
  | _, _ => none

/-- What `null` or a value stands for. -/
def asOption? {α : Type} (read : Json → Option α) : Json → Option (Option α)
  | .null => some none
  | j => (read j).map some

/-- The values of a field in an object. -/
def fieldValues (name : String) (fields : List (Option String × Json)) : List Json :=
  (fields.filter fun f => f.1 == some name).map (·.2)

/-- The value of a field that is there at most once. -/
def field? (name : String) (fields : List (Option String × Json)) : Option (Option Json) :=
  match fieldValues name fields with
  | [] => some none
  | [j] => some (some j)
  | _ => none

/-- The values of a record's fields, `none` for one that is not there. In an object every name
must decode, a field may not repeat, and other fields are passed over if `others` allows them; an
array may end early and may not be longer. -/
def record? (others : Bool) (names : List String) : Json → Option (List (Option Json))
  | .object fields =>
    if fields.all (fun f => f.1.any fun name => others || names.contains name) then
      names.mapM fun name => field? name fields
    else none
  | .array items =>
    if items.length ≤ names.length then
      some (items.map some ++ List.replicate (names.length - items.length) none)
    else none
  | _ => none

/-- A field that must be there. -/
def required? {α : Type} (read : Json → Option α) (field : Option Json) : Option α :=
  field.bind read

/-- A field with a value for when it is not there. -/
def withDefault? {α : Type} (default : α) (read : Json → Option α) (field : Option Json) :
    Option α :=
  match field with
  | none => some default
  | some j => read j

/-- A constant of an enumeration: its name, or an object with the name and `null`. -/
def asConstant? : Nat → Json → Option String
  | _, .string s => s
  | _ + 1, .object [(some name, .null)] => some name
  | _, _ => none

end PeerRecords.Json
