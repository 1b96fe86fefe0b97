import PeerRecords.Bytes
import PeerRecords.Node.Plain
import PeerRecords.Hash.Sha256
import PeerRecords.Text.Utf8

/-
  Canonical bytes of a document, for digests and signatures.
  Each kind of plain node starts with a byte of its own; texts, bytes and numbers carry their
  length; entries and elements are counted and sorted by their own bytes. So equal documents have
  equal bytes, whatever the order of their parts.
-/

namespace PeerRecords.Node

/-- Bytes after their length. -/
def lengthPrefixed (bytes : List UInt8) : List UInt8 := Bytes.length bytes.length ++ bytes

/-- Order of byte strings: the first difference decides, a proper beginning comes first. -/
def bytesLe : List UInt8 → List UInt8 → Bool
  | [], _ => true
  | _ :: _, [] => false
  | a :: as, b :: bs => if a = b then bytesLe as bs else decide (a < b)

/-- Inserts a byte string before the first that is not smaller. -/
def insertSorted (item : List UInt8) : List (List UInt8) → List (List UInt8)
  | [] => [item]
  | next :: items =>
    if bytesLe item next then item :: next :: items else next :: insertSorted item items

/-- Byte strings in order. -/
def sortBytes : List (List UInt8) → List (List UInt8)
  | [] => []
  | item :: items => insertSorted item (sortBytes items)

/-- Byte strings counted, sorted and joined. -/
def writeSorted (items : List (List UInt8)) : List UInt8 :=
  Bytes.length items.length ++ (sortBytes items).flatten

/-- The canonical bytes of a literal. -/
def leafBytes : Leaf → List UInt8
  | .string s => 1 :: lengthPrefixed (Utf8.bytes s)
  | .bool b => [2, if b then 1 else 0]
  | .blob bytes => 3 :: lengthPrefixed bytes
  | .int i => 4 :: lengthPrefixed (Bytes.signed i)
  | .float d => 5 :: lengthPrefixed (Utf8.encode d.normal.text)

mutual

/-- The canonical bytes of a plain tree. -/
def plainBytes : Node → List UInt8
  | .leaf _ v => leafBytes v
  | .dict _ t ps => 6 :: lengthPrefixed (Utf8.bytes t) ++ writeSorted (entryBytes ps)
  | .set _ t es => 7 :: lengthPrefixed (Utf8.bytes t) ++ writeSorted (elementBytes es)
  | .predicate _ t as _ ps =>
    8 :: lengthPrefixed (Utf8.bytes t) ++ Bytes.length as.length ++ (elementBytes as).flatten
      ++ writeSorted (entryBytes ps)
  | .identity _ _ _ | .claim _ _ _ _ _ _ | .verify _ _ _ | .reachable _ _ _ _ _ _ _ => []
termination_by structural n => n

/-- The canonical bytes of each node. -/
def elementBytes : List Node → List (List UInt8)
  | [] => []
  | n :: ns => plainBytes n :: elementBytes ns
termination_by structural ns => ns

/-- The canonical bytes of each entry: the key, then the value. -/
def entryBytes : List (Node × Node) → List (List UInt8)
  | [] => []
  | (k, v) :: ps => (plainBytes k ++ plainBytes v) :: entryBytes ps
termination_by structural ps => ps

end

/-- The canonical bytes of a document: those of its plain form. -/
def canonical (n : Node) : List UInt8 := plainBytes n.disassemble

/-- The SHA-256 digest of the canonical bytes. -/
def digest (n : Node) : List UInt8 := Sha256.digest n.canonical

/-- The name of a document's content. -/
def contentId (n : Node) : String := "sha256-" ++ String.ofList (Hex.encode n.digest)

/-- The identifier `cid(..)` of a document's content, without fields of the user. -/
def cidOf (n : Node) : Node := .identity none (.cid n.contentId) []

end PeerRecords.Node
