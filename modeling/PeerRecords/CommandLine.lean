import PeerRecords.Exchange.Message
import PeerRecords.Json.Data
import PeerRecords.Settings

/-
  The command line as a function from the bytes of files to what is printed.
  `fmt` prints the text of a document and `cid` the name of its content. `replay` runs a script of
  writes against an empty store and prints how each went, and then the documents of every key that
  the script names. What was printed before an error stays printed.
-/

namespace PeerRecords.CommandLine

/-- Why a command stops. -/
inductive Failure where
  /-- A file is not there, or is not text where text is needed. -/
  | unreadable (what path : String)
  /-- A file is not JSON of the right shape. -/
  | format
  /-- A document cannot be read. -/
  | document (e : Error)
  /-- The document of a step cannot be read. -/
  | step (index : Nat)

/-- The failure in words. -/
def Failure.message : Failure → String
  | unreadable what path => s!"Failed to read {what}: {path}"
  | format => Error.format.message
  | document e => e.message
  | step index => s!"step {index}: bad document"

/-- What a command prints, and why it stopped if it did. -/
structure Outcome where
  printed : String
  failure : Option Failure

/-- A file by its name; no bytes if it cannot be read. -/
structure File where
  path : String
  content : Option (List UInt8)

namespace File

/-- The bytes of a file. -/
def bytes (f : File) (what : String) : Except Failure (List UInt8) :=
  match f.content with
  | some bs => .ok bs
  | none => .error (.unreadable what f.path)

/-- The bytes of a file that are well-formed text. -/
def textBytes (f : File) (what : String) : Except Failure (List UInt8) := do
  let bs ← f.bytes what
  if (Utf8.decode? bs).isSome then .ok bs else .error (.unreadable what f.path)

end File

/-- What the program is asked to do. -/
inductive Command where
  | fmt (file : File)
  | cid (file : File)
  | replay (script : File) (config : Option File)

/-- The document in a file. -/
def readDocument (file : File) : Except Failure Node := do
  let bs ← file.bytes "file"
  match Node.unmarshal bs with
  | .ok n => .ok n
  | .error e => .error (.document e)

/-- A text of the document in a file, on a line. -/
def describe (file : File) (text : Node → String) : Outcome :=
  match readDocument file with
  | .ok n => ⟨text n ++ "\n", none⟩
  | .error f => ⟨"", some f⟩

/-! ## Scripts -/

/-- The clock of a script stands still; nothing that is printed depends on it. -/
def scriptClock : Instant := 0

/-- One write of a script. -/
structure Step where
  writer : String
  key : String
  doc : Json
  ttl : Option Nat

/-- Reads a step; `n` more arrays and objects may be opened. -/
def Step.ofJson? : Nat → Json → Option Step
  | n + 1, j =>
    match j.record? true ["writer", "key", "doc", "ttl"] with
    | some [writer, key, doc, ttl] => do
      let writer ← Json.required? Json.asString? writer
      let key ← Json.required? Json.asString? key
      let doc ← Json.required? (Json.data? n) doc
      let ttl ← Json.withDefault? none (Json.asOption? Json.asNat64?) ttl
      some ⟨writer, key, doc, ttl⟩
    | _ => none
  | _, _ => none

/-- Reads a script. -/
def readScript? : Nat → Json → Option (List Step)
  | n + 1, .array items => items.mapM (Step.ofJson? n)
  | _, _ => none

/-- The document of a step. -/
def Step.document? (s : Step) : Option Node :=
  match Wire.ofJson? Json.nestingLimit s.doc with
  | some w => w.toNode.toOption
  | none => none

/-- The line for a write, and the store after it. -/
def Step.run (s : Step) (index : Nat) (store : Store) (doc : Node) :
    String × Store :=
  let options : WriteOptions := match s.ttl with
    | some secs => .lasting (.ofSeconds secs)
    | none => {}
  match (store.update scriptClock ⟨s.writer⟩ s.key doc options).1 with
  | .ok store' => (s!"step {index}: {s.writer} updated {Text.quoted s.key}\n", store')
  | .error e => (s!"step {index}: {s.writer} failed: {e.message}\n", store)

/-- Runs the steps from number `index` on: what is printed, and the store after the last, or the
number of a step without a document. -/
def runSteps : Nat → Store → List Step → String × Except Nat Store
  | _, store, [] => ("", .ok store)
  | index, store, s :: steps =>
    match s.document? with
    | none => ("", .error index)
    | some doc =>
      let (line, store') := s.run index store doc
      let (lines, last) := runSteps (index + 1) store' steps
      (line ++ lines, last)

/-- The keys that steps name, in order and once each. -/
def touchedKeys (steps : List Step) : List String :=
  (steps.foldl (fun t s => t.insert s.key ()) (.empty : Table String Unit)).keys

/-- The documents of a key. -/
def keyReport (store : Store) (key : String) : String :=
  s!"{key}:\n" ++ String.join ((store.get key).entries.map fun w =>
    s!"  {w.1.name} => {(w.2.toNode none).pretty}\n")

/-- The settings in a file, or the usual ones. -/
def readConfig : Option File → Except Failure StoreSettings
  | none => .ok {}
  | some file => do
    let bs ← file.textBytes "config"
    match (Json.parse? bs).bind StoreSettings.ofJson? with
    | some c => .ok c
    | none => .error .format

/-- The settings and the steps of a script; the settings are read first. -/
def readReplay (script : File) (config : Option File) :
    Except Failure (StoreSettings × List Step) := do
  let c ← readConfig config
  let bs ← script.textBytes "script"
  match (Json.parse? bs).bind (readScript? Json.nestingLimit) with
  | some steps => .ok (c, steps)
  | none => .error .format

/-- Runs a script. -/
def replay (script : File) (config : Option File) : Outcome :=
  match readReplay script config with
  | .error f => ⟨"", some f⟩
  | .ok (c, steps) =>
    match runSteps 0 (.empty .standard c) steps with
    | (lines, .error index) => ⟨lines, some (.step index)⟩
    | (lines, .ok store) => ⟨lines ++ String.join ((touchedKeys steps).map (keyReport store)), none⟩

/-- What a command prints. -/
def run : Command → Outcome
  | .fmt file => describe file Node.pretty
  | .cid file => describe file Node.contentId
  | .replay script config => replay script config

end PeerRecords.CommandLine
