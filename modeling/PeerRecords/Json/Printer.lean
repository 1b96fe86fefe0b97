import PeerRecords.Json.Basic
import PeerRecords.Bytes

/-
  Compact JSON text: no blanks, fields in order, and in strings only what must be escaped: the
  quote, the backslash and the controls below the space.
-/

namespace PeerRecords.Json

/-- One character of a string. -/
def escapedChar (c : Char) : List Char :=
  if c = '"' then ['\\', '"']
  else if c = '\\' then ['\\', '\\']
  else if c = '\x08' then ['\\', 'b']
  else if c = '\x0c' then ['\\', 'f']
  else if c = '\n' then ['\\', 'n']
  else if c = '\r' then ['\\', 'r']
  else if c = '\t' then ['\\', 't']
  else if c.toNat < 0x20 then
    ['\\', 'u', '0', '0', Hex.digit (c.toNat / 16), Hex.digit (c.toNat % 16)]
  else [c]

/-- A string in quotes. -/
def stringText (cs : List Char) : List Char := '"' :: (cs.flatMap escapedChar ++ ['"'])

/-- The text of a string, empty for one that decodes to nothing. -/
def optionText (s : Option String) : List Char := stringText (s.getD "").toList

/-- The text of a number. -/
def numberText (x : Number) : List Char :=
  (if x.negative then ['-'] else []) ++ x.whole
    ++ (if x.fraction.isEmpty then [] else '.' :: x.fraction)
    ++ (match x.exponent with
      | some (negative, ds) => 'e' :: (if negative then '-' else '+') :: ds
      | none => [])

mutual

/-- The compact text of a value. -/
def text : Json → List Char
  | .null => ['n', 'u', 'l', 'l']
  | .bool true => ['t', 'r', 'u', 'e']
  | .bool false => ['f', 'a', 'l', 's', 'e']
  | .number x => numberText x
  | .string s => optionText s
  | .array items => '[' :: itemsText items
  | .object fields => '\x7b' :: fieldsText fields
termination_by structural j => j

/-- Items with the closing bracket. -/
def itemsText : List Json → List Char
  | [] => [']']
  | j :: js => text j ++ moreItemsText js
termination_by structural js => js

/-- The items after the first, with the closing bracket. -/
def moreItemsText : List Json → List Char
  | [] => [']']
  | j :: js => ',' :: (text j ++ moreItemsText js)
termination_by structural js => js

/-- Fields with the closing brace. -/
def fieldsText : List (Option String × Json) → List Char
  | [] => ['\x7d']
  | (k, j) :: fs => optionText k ++ ':' :: (text j ++ moreFieldsText fs)
termination_by structural fs => fs

/-- The fields after the first, with the closing brace. -/
def moreFieldsText : List (Option String × Json) → List Char
  | [] => ['\x7d']
  | (k, j) :: fs => ',' :: (optionText k ++ ':' :: (text j ++ moreFieldsText fs))
termination_by structural fs => fs

end

end PeerRecords.Json
