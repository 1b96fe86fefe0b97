import PeerRecords.Wire.Basic
import PeerRecords.Json.Parser
import PeerRecords.Json.Printer
import PeerRecords.Json.Reader

/-
  The JSON shape of the wire form: an object with one field, named for the form.
  The body of a dict, set or predicate is a record; an empty tag of a dict or set is not written.
  Reading counts the arrays and objects around a value and stops at the limit it is given.
  As text in bytes it is what `marshal` writes and `unmarshal` reads: all of the text has the right
  shape before any literal or key is looked at.
-/

namespace PeerRecords

namespace Wire

/-! ## Writing -/

/-- A form with its body. -/
def form (name : String) (body : Json) : Json := .ofFields [(name, body)]

/-- The field of a tag, unless it is empty. -/
def tagField (tag : String) : List (String × Json) :=
  if tag.isEmpty then [] else [("tag", .ofString tag)]

mutual

/-- The JSON value of a document. -/
def toJson : Wire → Json
  | .string s => form "string" (.ofString s)
  | .bool b => form "bool" (.bool b)
  | .blob bytes => form "blob" (.ofBytes bytes)
  | .int s => form "int" (.ofString s)
  | .float s => form "float" (.ofString s)
  | .dict t ps =>
    form "dict" (.ofFields (tagField t ++ [("pairs", .array (entriesToJson ps))]))
  | .set t es =>
    form "set" (.ofFields (tagField t ++ [("elements", .array (elementsToJson es))]))
  | .predicate t as ps =>
    form "predicate" (.ofFields
      [("tag", .ofString t), ("positional", .array (elementsToJson as)),
        ("named", .array (entriesToJson ps))])
termination_by structural w => w

/-- The JSON values of a list of documents. -/
def elementsToJson : List Wire → List Json
  | [] => []
  | w :: ws => toJson w :: elementsToJson ws
termination_by structural ws => ws

/-- Each entry as an array of its key and its value. -/
def entriesToJson : List (Wire × Wire) → List Json
  | [] => []
  | (k, v) :: ps => .array [toJson k, toJson v] :: entriesToJson ps
termination_by structural ps => ps

end

/-! ## Reading -/

mutual

/-- A document; `n` more arrays and objects may be opened. -/
def ofJson? : Nat → Json → Option Wire
  | n + 1, .object [(some name, body)] =>
    if name = "string" then body.asString?.map .string
    else if name = "bool" then body.asBool?.map .bool
    else if name = "blob" then (body.asBytes? n).map .blob
    else if name = "int" then body.asString?.map .int
    else if name = "float" then body.asString?.map .float
    else if name = "dict" then dictOfJson? n body
    else if name = "set" then setOfJson? n body
    else if name = "predicate" then predicateOfJson? n body
    else none
  | _, _ => none
termination_by structural n => n

/-- The body of a dict. -/
def dictOfJson? : Nat → Json → Option Wire
  | n + 1, body =>
    match body.record? true ["tag", "pairs"] with
    | some [tag, pairs] => do
      let tag ← Json.withDefault? "" Json.asString? tag
      let pairs ← Json.required? (entriesOfJson? n) pairs
      some (.dict tag pairs)
    | _ => none
  | _, _ => none
termination_by structural n => n

/-- The body of a set. -/
def setOfJson? : Nat → Json → Option Wire
  | n + 1, body =>
    match body.record? true ["tag", "elements"] with
    | some [tag, elements] => do
      let tag ← Json.withDefault? "" Json.asString? tag
      let elements ← Json.required? (elementsOfJson? n) elements
      some (.set tag elements)
    | _ => none
  | _, _ => none
termination_by structural n => n

/-- The body of a predicate. -/
def predicateOfJson? : Nat → Json → Option Wire
  | n + 1, body =>
    match body.record? true ["tag", "positional", "named"] with
    | some [tag, args, named] => do
      let tag ← Json.required? Json.asString? tag
      let args ← Json.withDefault? [] (elementsOfJson? n) args
      let named ← Json.withDefault? [] (entriesOfJson? n) named
      some (.predicate tag args named)
    | _ => none
  | _, _ => none
termination_by structural n => n

/-- An array of documents. -/
def elementsOfJson? : Nat → Json → Option (List Wire)
  | n + 1, .array items => items.mapM fun j => ofJson? n j
  | _, _ => none
termination_by structural n => n

/-- An array of entries. -/
def entriesOfJson? : Nat → Json → Option (List (Wire × Wire))
  | n + 1, .array items => items.mapM fun j => entryOfJson? n j
  | _, _ => none
termination_by structural n => n

/-- An array of a key and a value. -/
def entryOfJson? : Nat → Json → Option (Wire × Wire)
  | n + 1, .array [k, v] => do
    let k ← ofJson? n k
    let v ← ofJson? n v
    some (k, v)
  | _, _ => none
termination_by structural n => n

end

end Wire

/-! ## Text -/

/-- The wire form in text of bytes. -/
def Wire.ofText? (bytes : List UInt8) : Option Wire :=
  (Json.parse? bytes).bind (Wire.ofJson? Json.nestingLimit)

namespace Node

/-- The JSON text of a document. -/
def marshalText (n : Node) : List Char := (Wire.ofNode n).toJson.text

/-- The JSON text of a document, in bytes. -/
def marshal (n : Node) : List UInt8 := Utf8.encode n.marshalText

/-- The document of JSON text in bytes. -/
def unmarshal (bytes : List UInt8) : Except Error Node :=
  match Wire.ofText? bytes with
  | some w => w.toNode
  | none => .error .format

end Node

end PeerRecords
