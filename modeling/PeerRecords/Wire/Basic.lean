import PeerRecords.Node.Dict

/-
  The wire form of a document: what travels of its plain form. Expirations stay behind, and so do
  the tags of named arguments; numbers travel as text.
  `Wire.ofNode` writes, `Wire.toNode` reads and refuses number texts that spell no number and
  dicts with a repeated key; a repeated element of a set is absorbed.
-/

namespace PeerRecords

/-- A document as it travels. -/
inductive Wire where
  | string (s : String)
  | bool (b : Bool)
  | blob (bytes : List UInt8)
  | int (text : String)
  | float (text : String)
  | dict (tag : String) (entries : List (Wire × Wire))
  | set (tag : String) (elements : List Wire)
  | predicate (tag : String) (args : List Wire) (named : List (Wire × Wire))

namespace Wire

instance : Inhabited Wire := ⟨.bool false⟩

/-- A literal as it travels. -/
def ofLeaf : Leaf → Wire
  | .string s => .string s
  | .bool b => .bool b
  | .blob bytes => .blob bytes
  | .int i => .int (String.ofList (Numeral.text i))
  | .float d => .float (String.ofList d.text)

mutual

/-- A plain tree as it travels. -/
def ofPlain : Node → Wire
  | .leaf _ v => ofLeaf v
  | .dict _ t ps => .dict t (ofEntries ps)
  | .set _ t es => .set t (ofElements es)
  | .predicate _ t as _ ps => .predicate t (ofElements as) (ofEntries ps)
  | .identity _ _ _ | .claim _ _ _ _ _ _ | .verify _ _ _ | .reachable _ _ _ _ _ _ _ =>
    .bool false
termination_by structural n => n

/-- The nodes of a list as they travel. -/
def ofElements : List Node → List Wire
  | [] => []
  | n :: ns => ofPlain n :: ofElements ns
termination_by structural ns => ns

/-- The entries of a list as they travel. -/
def ofEntries : List (Node × Node) → List (Wire × Wire)
  | [] => []
  | (k, v) :: ps => (ofPlain k, ofPlain v) :: ofEntries ps
termination_by structural ps => ps

end

/-- A document as it travels: its plain form. -/
def ofNode (n : Node) : Wire := ofPlain n.disassemble

/-- The number of an integer's text. -/
def readInt (s : String) : Except Error Int :=
  match Numeral.literal? s.toList with
  | some i => .ok i
  | none => .error (.protocol (.intLiteral s))

/-- The number of a decimal's text. -/
def readFloat (s : String) : Except Error Decimal :=
  match Decimal.parse? s.toList with
  | some d => .ok d
  | none => .error (.protocol (.floatLiteral s))

mutual

/-- The document that has travelled, without expirations. -/
def toNode : Wire → Except Error Node
  | .string s => .ok (.leaf none (.string s))
  | .bool b => .ok (.leaf none (.bool b))
  | .blob bytes => .ok (.leaf none (.blob bytes))
  | .int s => do
    let i ← readInt s
    .ok (.leaf none (.int i))
  | .float s => do
    let d ← readFloat s
    .ok (.leaf none (.float d))
  | .dict t ps => do
    let qs ← toEntries ps
    let qs ← Dict.checkKeys qs
    .ok (.dict none t qs)
  | .set t es => do
    let fs ← toElements es
    .ok (.set none t (fs.foldl NodeSet.addTo []))
  | .predicate t as ps => do
    let bs ← toElements as
    let qs ← toEntries ps
    let qs ← Dict.checkKeys qs
    .ok (.predicate none t bs "" qs)
termination_by structural w => w

/-- The documents of a list, in order. -/
def toElements : List Wire → Except Error (List Node)
  | [] => .ok []
  | w :: ws => do
    let n ← toNode w
    let ns ← toElements ws
    .ok (n :: ns)
termination_by structural ws => ws

/-- The entries of a list, in order, each key before its value. -/
def toEntries : List (Wire × Wire) → Except Error (List (Node × Node))
  | [] => .ok []
  | (k, v) :: ps => do
    let k ← toNode k
    let v ← toNode v
    let qs ← toEntries ps
    .ok ((k, v) :: qs)
termination_by structural ps => ps

end

end Wire

end PeerRecords
