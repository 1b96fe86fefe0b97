import PeerRecords.Json.Token
import PeerRecords.Text.Utf8

/-
  JSON values from tokens, by a machine that reads each token once.
  `Frame`s are the arrays and objects that are still open, the innermost first; the `Mode` says
  what may come next. Nesting has no limit here: the readers of documents have one, and what they
  pass over may be nested as deep as it likes.
-/

namespace PeerRecords.Json

/-- An array or object that is still open, its finished parts last first. -/
inductive Frame where
  | array (done : List Json)
  | object (done : List (Option String × Json)) (key : Option String)

/-- What may come next. -/
inductive Mode where
  /-- A value. -/
  | value
  /-- A value, or the end of an array without items. -/
  | firstItem
  /-- A key, or the end of an object without fields. -/
  | firstKey
  /-- A key, for an object with these finished fields. -/
  | key (done : List (Option String × Json))
  /-- The colon after a key. -/
  | colon (done : List (Option String × Json)) (key : Option String)
  /-- What follows a finished value. -/
  | finished (j : Json)

/-- The machine's state. -/
abbrev State := Mode × List Frame

/-- A token where a value is wanted. -/
def startValue (t : Token) (stack : List Frame) : Option State :=
  match t with
  | .null => some (.finished .null, stack)
  | .bool b => some (.finished (.bool b), stack)
  | .number x => some (.finished (.number x), stack)
  | .string s => some (.finished (.string s), stack)
  | .openArray => some (.firstItem, .array [] :: stack)
  | .openObject => some (.firstKey, stack)
  | _ => none

/-- A token after a finished value. -/
def continueAfter (j : Json) (t : Token) (stack : List Frame) : Option State :=
  match stack, t with
  | .array done :: stack, .comma => some (.value, .array (j :: done) :: stack)
  | .array done :: stack, .closeArray => some (.finished (.array (j :: done).reverse), stack)
  | .object done k :: stack, .comma => some (.key ((k, j) :: done), stack)
  | .object done k :: stack, .closeObject =>
    some (.finished (.object ((k, j) :: done).reverse), stack)
  | _, _ => none

/-- One token. -/
def step (s : State) (t : Token) : Option State :=
  match s with
  | (.value, stack) => startValue t stack
  | (.firstItem, stack) =>
    match t, stack with
    | .closeArray, .array _ :: stack => some (.finished (.array []), stack)
    | t, stack => startValue t stack
  | (.firstKey, stack) =>
    match t with
    | .closeObject => some (.finished (.object []), stack)
    | .string k => some (.colon [] k, stack)
    | _ => none
  | (.key done, stack) =>
    match t with
    | .string k => some (.colon done k, stack)
    | _ => none
  | (.colon done k, stack) =>
    match t with
    | .colon => some (.value, .object done k :: stack)
    | _ => none
  | (.finished j, stack) => continueAfter j t stack

/-- All tokens of a list. -/
def steps : State → List Token → Option State
  | s, [] => some s
  | s, t :: ts => (step s t).bind fun s => steps s ts

/-- The value of a whole list of tokens. -/
def ofTokens? (ts : List Token) : Option Json :=
  match steps (.value, []) ts with
  | some (.finished j, []) => some j
  | _ => none

/-- The value of a whole text. -/
def parse? (bytes : List UInt8) : Option Json := (tokens (Utf8.symbols bytes)).bind ofTokens?

end PeerRecords.Json
