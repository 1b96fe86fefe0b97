import PeerRecords.Node.Plain
import PeerRecords.Bytes
import PeerRecords.Text.Quoted

/-
  The text of a document for diagnostics: the plain form, one entry or element to a line, indented
  by its depth. Empty containers stay on one line.
-/

namespace PeerRecords.Node

/-- The indentation of a depth. -/
def indent (depth : Nat) : List Char := List.replicate (2 * depth) ' '

/-- The text of a literal. -/
def leafText : Leaf → List Char
  | .string s => (Text.quoted s).toList
  | .bool b => (if b then "true" else "false").toList
  | .blob bytes => '0' :: 'x' :: Hex.encode bytes
  | .int i => Numeral.text i
  | .float d => d.text

/-- A container with its tag and brackets; `lines` are its entries and elements. -/
def bracketed (depth : Nat) (tag : String) (opening closing : Char) (isEmpty : Bool)
    (lines : List Char) : List Char :=
  if isEmpty then tag.toList ++ [opening, closing]
  else tag.toList ++ [opening, '\n'] ++ lines ++ indent depth ++ [closing]

mutual

/-- The text of a plain tree at a depth. -/
def plainText (depth : Nat) : Node → List Char
  | .leaf _ v => leafText v
  | .dict _ t ps => bracketed depth t '\x7b' '\x7d' ps.isEmpty (entryLines (depth + 1) ps)
  | .set _ t es => bracketed depth t '[' ']' es.isEmpty (elementLines (depth + 1) es)
  | .predicate _ t as _ ps =>
    bracketed depth t '(' ')' (as.isEmpty && ps.isEmpty)
      (elementLines (depth + 1) as ++ entryLines (depth + 1) ps)
  | .identity _ _ _ | .claim _ _ _ _ _ _ | .verify _ _ _ | .reachable _ _ _ _ _ _ _ => []
termination_by structural n => n

/-- One line for each element. -/
def elementLines (depth : Nat) : List Node → List Char
  | [] => []
  | n :: ns => indent depth ++ plainText depth n ++ [',', '\n'] ++ elementLines depth ns
termination_by structural ns => ns

/-- One line for each entry. -/
def entryLines (depth : Nat) : List (Node × Node) → List Char
  | [] => []
  | (k, v) :: ps =>
    indent depth ++ plainText depth k ++ [':', ' '] ++ plainText depth v ++ [',', '\n']
      ++ entryLines depth ps
termination_by structural ps => ps

end

/-- The text of a document. -/
def pretty (n : Node) : String := String.ofList (plainText 0 n.disassemble)

end PeerRecords.Node
