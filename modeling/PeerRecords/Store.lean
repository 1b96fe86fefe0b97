import PeerRecords.Assembly
import PeerRecords.Projection
import PeerRecords.Sweep
import PeerRecords.Table
import PeerRecords.Update

/-
  The store: for each key and each writer one assembled document.
  A write assembles a document and folds it into its writer's slot, or leaves everything as it is;
  writers never touch each other's slots. Reading gives plain forms, and only of documents with
  entries. A sweep takes expired parts out of every slot; a key stays once it has been written.
-/

namespace PeerRecords

/-- Settings of a store. -/
structure StoreSettings where
  /-- The time between two sweeps. -/
  gcPeriod : Duration := Duration.ofSeconds 60
  /-- How long nodes live whose write does not say. -/
  defaultTtl : Option Duration := none
deriving DecidableEq, Repr, Inhabited

/-- What a write asks for besides its document. -/
structure WriteOptions where
  lifetime : Lifetime := {}
  deadline : Option Instant := none
deriving Inhabited

/-- A write whose nodes live for `d`. -/
def WriteOptions.lasting (d : Duration) : WriteOptions := { lifetime := .lasting d }

/-- What a sweep has done. -/
structure SweepCounts where
  documentsScanned : Nat := 0
  documentsRemoved : Nat := 0
  nodesRemoved : Nat := 0
deriving DecidableEq, Repr, Inhabited

namespace SweepCounts

/-- Counts added up. -/
def add (a b : SweepCounts) : SweepCounts :=
  ⟨a.documentsScanned + b.documentsScanned, a.documentsRemoved + b.documentsRemoved,
    a.nodesRemoved + b.nodesRemoved⟩

/-- The counts for one document swept at `now`. -/
def ofDocument (now : Instant) (doc : Node) : SweepCounts :=
  let swept := doc.sweep now
  ⟨1, if swept.1.isNone then 1 else 0, swept.2⟩

/-- The sum of counts. -/
def total (counts : List SweepCounts) : SweepCounts := counts.foldl add {}

end SweepCounts

/-- The documents of one key by writer. -/
abbrev Writers := Table PeerId Node

/-- A store. -/
structure Store where
  grammar : Grammar := .standard
  config : StoreSettings := {}
  records : Table String Writers := .empty

namespace Store

instance : Inhabited Store := ⟨{}⟩

/-- The store without documents. -/
def empty (grammar : Grammar) (config : StoreSettings) : Store := ⟨grammar, config, .empty⟩

/-- The writers of a key. -/
def writers (s : Store) (key : String) : Writers := (s.records.get? key).getD .empty

/-- The document of a writer under a key. -/
def slot? (s : Store) (key : String) (writer : PeerId) : Option Node :=
  (s.writers key).get? writer

/-- The store with a document in a slot. -/
def put (s : Store) (key : String) (writer : PeerId) (doc : Node) : Store :=
  { s with records := s.records.insert key ((s.writers key).insert writer doc) }

/-- The context in which a write is assembled. -/
def writeContext (s : Store) (now : Instant) (writer : PeerId) (options : WriteOptions) :
    Context where
  now := now
  expiry := (options.lifetime.withDefault s.config.defaultTtl).resolve now
  writer := some writer
  deadline := options.deadline

/-- The document that a slot holds after an assembled one is folded in. -/
def folded (old : Option Node) (doc : Node) : Except Error Node :=
  match old with
  | some n => n.update doc
  | none => .ok doc

/-- The store with an assembled document folded into a slot. -/
def foldIn (s : Store) (key : String) (writer : PeerId) (doc : Node) : Except Error Store :=
  match doc with
  | .dict _ _ _ => do
    let merged ← folded (s.slot? key writer) doc
    .ok (s.put key writer merged)
  | n => .error (.notADict n.kind)

/-- A write: the store after it or why it failed, and the calls to the probe. -/
def update (s : Store) (now : Instant) (writer : PeerId) (key : String) (doc : Node)
    (options : WriteOptions) : Except Error Store × List ProbeCall :=
  let assembled := (s.grammar.assemble (s.writeContext now writer options) doc).outcome
  (assembled.1.bind fun n => s.foldIn key writer n, assembled.2)

/-- What a reader sees of a document: its plain form, if it is a dict with entries. -/
def visible? (doc : Node) : Option Dict :=
  doc.dict?.bind fun d => if d.isEmpty then none else some d.disassemble

/-- The plain documents of a key by writer. -/
def get (s : Store) (key : String) : Table PeerId Dict := (s.writers key).filterMap visible?

/-- The plain documents of a key by writer, each projected through a selector. -/
def query (s : Store) (key : String) (selector : Dict) : Table PeerId Dict :=
  (s.get key).map fun d => d.project selector

/-- The keys that have been written, in order. -/
def keys (s : Store) : List String := s.records.keys

/-- The number of keys. -/
def size (s : Store) : Nat := s.records.size

/-- Whether no key has been written. -/
def isEmpty (s : Store) : Bool := s.records.isEmpty

/-- The store after a sweep. -/
def collect (s : Store) (now : Instant) : Store :=
  { s with records := s.records.map fun ws => ws.filterMap fun doc => (doc.sweep now).1 }

/-- The counts of a sweep. -/
def collectCounts (s : Store) (now : Instant) : SweepCounts :=
  .total ((s.records.entries.flatMap fun r => r.2.entries).map fun w => .ofDocument now w.2)

end Store

end PeerRecords
