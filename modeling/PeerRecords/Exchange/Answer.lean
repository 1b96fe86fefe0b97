import PeerRecords.Exchange.Message

/-
  Answering requests.
  `Store.answer` runs a request of an authenticated writer against a store and never fails: an
  error becomes the status of the response, and the store stays as it was.
-/

namespace PeerRecords

/-- What has come of a request. -/
structure Answered where
  response : Response
  store : Store
  calls : List ProbeCall

namespace Store

/-- What the write that a request asks for wants besides its document; its questions to the
network are to end by the timeout. -/
def requestOptions (now : Instant) (request : Request) (timeout : Option Duration) :
    WriteOptions where
  lifetime := if request.ttl = 0 then {} else .lasting (.ofSeconds request.ttl)
  deadline := timeout.map fun t => now + t

/-- The documents of a key through the selector that is sent. -/
def answerQuery (s : Store) (key : String) (value : List UInt8) : Except Error (List UInt8) := do
  let selector ← Node.unmarshal value
  let selector ← selector.requireDict
  .ok (writeDocuments (s.query key selector))

/-- The value of the response and the store after it, or why there is none; and the calls to the
probe. -/
def attempt (s : Store) (now : Instant) (writer : PeerId) (request : Request)
    (timeout : Option Duration) : Except Error (List UInt8 × Store) × List ProbeCall :=
  match Utf8.text? request.key with
  | none => (.error (.protocol .keyNotUtf8), [])
  | some key =>
    match request.operation with
    | .get => (.ok (writeDocuments (s.get key), s), [])
    | .query => ((s.answerQuery key request.value).map fun value => (value, s), [])
    | .update =>
      match Node.unmarshal request.value with
      | .error e => (.error e, [])
      | .ok doc =>
        let outcome := s.update now writer key doc (requestOptions now request timeout)
        (outcome.1.map fun s' => ([], s'), outcome.2)

/-- Answers a request. -/
def answer (s : Store) (now : Instant) (writer : PeerId) (request : Request)
    (timeout : Option Duration) : Answered :=
  match s.attempt now writer request timeout with
  | (.ok (value, s'), calls) => ⟨⟨request.id, .ok, value⟩, s', calls⟩
  | (.error e, calls) => ⟨⟨request.id, .error e.message, []⟩, s, calls⟩

end Store

end PeerRecords
