import PeerRecords.Error

/-
  Dicts and sets of documents as values of their own, with the operations of an ordered map and an
  ordered set under structural equality.
  An insertion at a present key keeps the key's place and the key as it is stored; a new key goes
  to the end. Insertion into a set leaves the set as it is when an equal element is there.
-/

namespace PeerRecords

open Node

/-- A tag with keys and values in order. -/
structure Dict where
  tag : String := ""
  entries : List (Node × Node) := []
deriving Inhabited

namespace Dict

/-- A dict without entries. -/
def empty (tag : String) : Dict := ⟨tag, []⟩

/-- The test for a key equal to `key`; the stored key is asked. -/
def isKey (key : Node) : Node → Bool := fun k => k.eqv key

/-- The test for the key that is the text `s`. -/
def isText (s : String) : Node → Bool := fun k => k.string? == some s

/-- The value at a key. -/
def get? (d : Dict) (key : Node) : Option Node := Entries.lookup? (isKey key) d.entries

/-- The value at a text. -/
def getText? (d : Dict) (s : String) : Option Node := Entries.lookup? (isText s) d.entries

/-- Whether a key is present. -/
def contains (d : Dict) (key : Node) : Bool := (d.get? key).isSome

/-- Gives a key a value. -/
def insert (d : Dict) (key value : Node) : Dict :=
  { d with entries := Entries.put (isKey key) key value d.entries }

/-- The value a key has had, and the dict with its new value. -/
def getThenInsert (d : Dict) (key value : Node) : Option Node × Dict :=
  (d.get? key, d.insert key value)

/-- Takes out a key. -/
def erase (d : Dict) (key : Node) : Dict :=
  { d with entries := Entries.takeOut (isKey key) d.entries }

/-- The value a key has had, and the dict without it. -/
def getThenErase (d : Dict) (key : Node) : Option Node × Dict := (d.get? key, d.erase key)

/-- Takes out a text. -/
def eraseText (d : Dict) (s : String) : Dict :=
  { d with entries := Entries.takeOut (isText s) d.entries }

/-- The value a text has had, and the dict without it. -/
def getThenEraseText (d : Dict) (s : String) : Option Node × Dict := (d.getText? s, d.eraseText s)

/-- The entries that pass a test. -/
def filter (d : Dict) (test : Node × Node → Bool) : Dict :=
  { d with entries := d.entries.filter test }

/-- The number of keys. -/
def size (d : Dict) : Nat := d.entries.length

/-- Whether there are no keys. -/
def isEmpty (d : Dict) : Bool := d.entries.isEmpty

/-- The dict of plain forms. -/
def disassemble (d : Dict) : Dict := { d with entries := disassembleEntries d.entries }

/-- The first key that is equal to one before it. -/
def firstRepeat? (seen : List Node) : List (Node × Node) → Option Node
  | [] => none
  | p :: ps => if p.1.isIn seen then some p.1 else firstRepeat? (p.1 :: seen) ps

/-- The entries themselves, if no key is there twice. -/
def checkKeys (ps : List (Node × Node)) : Except Error (List (Node × Node)) :=
  match firstRepeat? [] ps with
  | none => .ok ps
  | some key => .error (.duplicateKey key)

/-- The dict of a list of entries, if no key is there twice. -/
def ofEntries (tag : String) (ps : List (Node × Node)) : Except Error Dict :=
  (checkKeys ps).map fun ps => ⟨tag, ps⟩

/-- The dict as a document. -/
def toNode (d : Dict) (expiry : Expiry) : Node := .dict expiry d.tag d.entries

end Dict

/-- The dict that a document is. -/
def Node.dict? : Node → Option Dict
  | .dict _ t ps => some ⟨t, ps⟩
  | _ => none

/-- A tag with elements in order. -/
structure NodeSet where
  tag : String := ""
  elements : List Node := []
deriving Inhabited

namespace NodeSet

/-- A set without elements. -/
def empty (tag : String) : NodeSet := ⟨tag, []⟩

/-- Adds an element unless an equal one is there. -/
def addTo (ns : List Node) (n : Node) : List Node := if n.isIn ns then ns else ns ++ [n]

/-- Whether an equal element is there. -/
def contains (s : NodeSet) (n : Node) : Bool := n.isIn s.elements

/-- The set with an element. -/
def insert (s : NodeSet) (n : Node) : NodeSet := { s with elements := addTo s.elements n }

/-- Whether the element is new, and the set with it. -/
def containsThenInsert (s : NodeSet) (n : Node) : Bool × NodeSet := (!s.contains n, s.insert n)

/-- The elements that pass a test. -/
def filter (s : NodeSet) (test : Node → Bool) : NodeSet :=
  { s with elements := s.elements.filter test }

/-- The number of elements. -/
def size (s : NodeSet) : Nat := s.elements.length

/-- Whether there are no elements. -/
def isEmpty (s : NodeSet) : Bool := s.elements.isEmpty

/-- The set of plain forms. -/
def disassemble (s : NodeSet) : NodeSet := { s with elements := disassembleAll s.elements }

/-- The set as a document. -/
def toNode (s : NodeSet) (expiry : Expiry) : Node := .set expiry s.tag s.elements

end NodeSet

end PeerRecords
