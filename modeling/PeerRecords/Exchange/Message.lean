import PeerRecords.Store
import PeerRecords.Uuid
import PeerRecords.Wire.Json

/-
  Requests to a store and its responses, with their JSON records.
  Keys and values travel as bytes. A response with documents holds one dict from writers to their
  documents.
-/

namespace PeerRecords

/-- What a request asks for. -/
inductive Operation where
  | get
  | update
  | query
deriving DecidableEq, Repr

namespace Operation

/-- The word for an operation. -/
def name : Operation → String
  | get => "GET"
  | update => "UPDATE"
  | query => "QUERY"

/-- The operation of a word. -/
def ofName? (s : String) : Option Operation := [get, update, query].find? fun o => o.name == s

/-- Reads an operation. -/
def ofJson? (j : Json) : Option Operation := (Json.asConstant? 1 j).bind ofName?

end Operation

/-- Reads an identifier. -/
def Uuid.ofJson? (j : Json) : Option Uuid := j.asString?.bind parse?

/-- A request. -/
structure Request where
  id : Uuid
  operation : Operation
  key : List UInt8
  value : List UInt8 := []
  /-- Seconds that the written nodes live; zero leaves it to the store. -/
  ttl : Nat := 0
deriving DecidableEq, Repr

namespace Request

/-- A request for the documents of a key. -/
def get (id : Uuid) (key : String) : Request := ⟨id, .get, Utf8.bytes key, [], 0⟩

/-- A request to write a document. -/
def update (id : Uuid) (key : String) (doc : Node) (ttl : Nat) : Request :=
  ⟨id, .update, Utf8.bytes key, doc.marshal, ttl⟩

/-- A request for the documents of a key, projected through a selector. -/
def query (id : Uuid) (key : String) (selector : Dict) : Request :=
  ⟨id, .query, Utf8.bytes key, (selector.toNode none).marshal, 0⟩

/-- Reads a request; a value and a ttl may be left out. -/
def ofJson? (j : Json) : Option Request :=
  match j.record? true ["id", "operation", "key", "value", "ttl"] with
  | some [id, operation, key, value, ttl] => do
    let id ← Json.required? Uuid.ofJson? id
    let operation ← Json.required? Operation.ofJson? operation
    let key ← Json.required? (Json.asBytes? 1) key
    let value ← Json.withDefault? [] (Json.asBytes? 1) value
    let ttl ← Json.withDefault? 0 Json.asNat64? ttl
    some ⟨id, operation, key, value, ttl⟩
  | _ => none

/-- The record of a request. -/
def toJson (r : Request) : Json :=
  .ofFields [("id", .ofString r.id.text), ("operation", .ofString r.operation.name),
    ("key", .ofBytes r.key), ("value", .ofBytes r.value), ("ttl", .ofNat r.ttl)]

end Request

/-- How a request went. -/
inductive Status where
  | ok
  | error (text : String)
deriving DecidableEq, Repr

/-- Reads a status. -/
def Status.ofJson? : Json → Option Status
  | .string (some "Ok") => some .ok
  | .object [(some "Ok", .null)] => some .ok
  | .object [(some "Error", .string (some text))] => some (.error text)
  | _ => none

/-- The answer to a request. -/
structure Response where
  id : Uuid
  status : Status
  value : List UInt8 := []
deriving DecidableEq, Repr

namespace Response

/-- Reads a response; a value may be left out. -/
def ofJson? (j : Json) : Option Response :=
  match j.record? true ["id", "status", "value"] with
  | some [id, status, value] => do
    let id ← Json.required? Uuid.ofJson? id
    let status ← Json.required? Status.ofJson? status
    let value ← Json.withDefault? [] (Json.asBytes? 1) value
    some ⟨id, status, value⟩
  | _ => none

end Response

/-- The dict that a document has to be. -/
def Node.requireDict (n : Node) : Except Error Dict :=
  match n.dict? with
  | some d => .ok d
  | none => .error (.notADict n.kind)

/-- The documents of writers in one dict. -/
def documentsDict (docs : Table PeerId Dict) : Dict :=
  docs.entries.foldl (fun d w => d.insert (Node.ofString w.1.name) (w.2.toNode none)) (.empty "")

/-- The documents of writers as they travel. -/
def writeDocuments (docs : Table PeerId Dict) : List UInt8 :=
  ((documentsDict docs).toNode none).marshal

/-- One writer with its document. -/
def readWriter (entry : Node × Node) : Except Error (PeerId × Dict) :=
  match entry.1.string? with
  | none => .error (.protocol .writerNotAString)
  | some s => do
    let writer ← readPeerId s
    let doc ← entry.2.requireDict
    .ok (writer, doc)

/-- The documents of writers from a list of entries, on top of those read before. -/
def readWriters : Table PeerId Dict → List (Node × Node) → Except Error (Table PeerId Dict)
  | docs, [] => .ok docs
  | docs, p :: ps => do
    let w ← readWriter p
    readWriters (docs.insert w.1 w.2) ps

/-- The documents that a response holds, by writer. -/
def Response.documents (r : Response) : Except Error (Table PeerId Dict) :=
  match r.status with
  | .error text => .error (.protocol (.refused text))
  | .ok => do
    let n ← Node.unmarshal r.value
    let d ← n.requireDict
    readWriters .empty d.entries

end PeerRecords
