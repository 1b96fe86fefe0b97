import PeerRecords.Time
import PeerRecords.Decimal
import PeerRecords.Multiaddr

/-
  Documents.
  A node is a literal, a dict, a set, a predicate `tag(args.., key: value..)`, or a smart node: a
  typed value that stands for a predicate and has its own rules for update and merge. Every node
  carries an expiration. Dicts and predicates keep their entries in order, sets their elements;
  that keys and elements are pairwise unequal is a predicate of its own (`Node.WellFormed`), since
  the sweep of expired parts can make two elements of a set equal.
  `Node.induct` is induction over documents with the hypotheses for all entries and elements.
-/

namespace PeerRecords

/-- A literal value. -/
inductive Leaf where
  | string (s : String)
  | bool (b : Bool)
  | blob (bytes : List UInt8)
  | int (i : Int)
  | float (d : Decimal)
deriving DecidableEq, Repr, Inhabited

/-- What a smart node that names one thing is known by. -/
inductive Identity where
  | record (key : String)
  | peer (id : PeerId)
  | cid (value : String)
  | multiaddress (addr : Multiaddr)
deriving DecidableEq, Repr

/-- Whether a signature was taken at face value or checked. -/
inductive Assurance where
  | signed
  | verified
deriving DecidableEq, Repr

/-- How an address was found reachable. -/
inductive ProbeMode where
  | dial
  | connection
deriving DecidableEq, Repr

/-- The word for a mode in a document. -/
def ProbeMode.name : ProbeMode → String
  | dial => "dial"
  | connection => "connection"

/-- The mode of a word. -/
def ProbeMode.ofName? (s : String) : Option ProbeMode :=
  if s = "dial" then some dial else if s = "connection" then some connection else none

/-- What a node is, without its content. -/
inductive Kind where
  | string | bool | blob | int | float
  | dict | set | predicate
  | record | peer | cid | multiaddress | signed | verify | verified | reachable
deriving DecidableEq, Repr

/-- The word for a kind. -/
def Kind.name : Kind → String
  | string => "string"
  | bool => "bool"
  | blob => "blob"
  | int => "int"
  | float => "float"
  | dict => "dict"
  | set => "set"
  | predicate => "predicate"
  | record => "record"
  | peer => "peer"
  | cid => "cid"
  | multiaddress => "multiaddress"
  | signed => "signed"
  | verify => "verify"
  | verified => "verified"
  | reachable => "reachable"

namespace Leaf

/-- The kind of a literal. -/
def kind : Leaf → Kind
  | string _ => .string
  | bool _ => .bool
  | blob _ => .blob
  | int _ => .int
  | float _ => .float

/-- Equality of literals; decimal numbers are compared as numbers. -/
def alike : Leaf → Leaf → Bool
  | float a, float b => a.alike b
  | a, b => decide (a = b)

end Leaf

namespace Identity

/-- The kind of node that an identity makes. -/
def kind : Identity → Kind
  | record _ => .record
  | peer _ => .peer
  | cid _ => .cid
  | multiaddress _ => .multiaddress

/-- The one argument of the predicate that the node stands for. -/
def text : Identity → String
  | record key => key
  | peer id => id.name
  | cid value => value
  | multiaddress addr => addr.text

end Identity

/-- The kind of a claim. -/
def Assurance.kind : Assurance → Kind
  | signed => .signed
  | verified => .verified

/-- A document. The last four constructors are the smart nodes; `user` holds the named arguments
that have no meaning of their own. -/
inductive Node where
  /-- A literal. -/
  | leaf (expiry : Expiry) (value : Leaf)
  /-- Keys with values, in order. -/
  | dict (expiry : Expiry) (tag : String) (entries : List (Node × Node))
  /-- Elements without order of meaning. -/
  | set (expiry : Expiry) (tag : String) (elements : List Node)
  /-- `tag(args.., key: value..)`; the named arguments form a dict with a tag of its own. -/
  | predicate (expiry : Expiry) (tag : String) (args : List Node) (namedTag : String)
      (named : List (Node × Node))
  /-- `record(key)`, `peer(id)`, `cid(value)` or `multiaddress(addr)`. -/
  | identity (expiry : Expiry) (id : Identity) (user : List (Node × Node))
  /-- `signed(statement, by:, signature:)` or `verified(..)`. -/
  | claim (expiry : Expiry) (assurance : Assurance) (signer : PeerId) (statement : Node)
      (signature : List UInt8) (user : List (Node × Node))
  /-- `verify(statement)`: a claim whose signature did not check. -/
  | verify (expiry : Expiry) (statement : Node) (user : List (Node × Node))
  /-- `reachable(addr.., check:, unverified:)`. -/
  | reachable (expiry : Expiry) (mode : ProbeMode) (verifiedTag : String) (verified : List Node)
      (unverifiedTag : String) (unverified : List Node) (user : List (Node × Node))

namespace Node

instance : Inhabited Node := ⟨.leaf none default⟩

/-- Induction over documents. -/
@[elab_as_elim]
theorem induct {motive : Node → Prop}
    (leaf : ∀ e v, motive (.leaf e v))
    (dict : ∀ e t ps, (∀ p ∈ ps, motive p.1 ∧ motive p.2) → motive (.dict e t ps))
    (set : ∀ e t es, (∀ n ∈ es, motive n) → motive (.set e t es))
    (predicate : ∀ e t as nt ps, (∀ n ∈ as, motive n) → (∀ p ∈ ps, motive p.1 ∧ motive p.2) →
      motive (.predicate e t as nt ps))
    (identity : ∀ e i us, (∀ p ∈ us, motive p.1 ∧ motive p.2) → motive (.identity e i us))
    (claim : ∀ e a b s g us, motive s → (∀ p ∈ us, motive p.1 ∧ motive p.2) →
      motive (.claim e a b s g us))
    (verify : ∀ e s us, motive s → (∀ p ∈ us, motive p.1 ∧ motive p.2) → motive (.verify e s us))
    (reachable : ∀ e m vt vs ut uvs us, (∀ n ∈ vs, motive n) → (∀ n ∈ uvs, motive n) →
      (∀ p ∈ us, motive p.1 ∧ motive p.2) → motive (.reachable e m vt vs ut uvs us))
    (n : Node) : motive n :=
  @Node.rec motive (fun ps => ∀ p ∈ ps, motive p.1 ∧ motive p.2) (fun ns => ∀ n ∈ ns, motive n)
    (fun p => motive p.1 ∧ motive p.2)
    leaf dict set predicate identity
    (fun e a b s g us hs hu => claim e a b s g us hs hu)
    (fun e s us hs hu => verify e s us hs hu)
    reachable
    (fun _ h => absurd h List.not_mem_nil)
    (fun _ _ hp hps q hq => (List.mem_cons.1 hq).elim (fun e => e ▸ hp) (hps q))
    (fun _ h => absurd h List.not_mem_nil)
    (fun _ _ hp hps q hq => (List.mem_cons.1 hq).elim (fun e => e ▸ hp) (hps q))
    (fun _ _ h₁ h₂ => ⟨h₁, h₂⟩) n

/-- When the node itself expires. -/
def expiry : Node → Expiry
  | .leaf e _ | .dict e _ _ | .set e _ _ | .predicate e _ _ _ _ | .identity e _ _
  | .claim e _ _ _ _ _ | .verify e _ _ | .reachable e _ _ _ _ _ _ => e

/-- The node with another expiration; what is inside keeps its own. -/
def withExpiry (e : Expiry) : Node → Node
  | .leaf _ v => .leaf e v
  | .dict _ t ps => .dict e t ps
  | .set _ t es => .set e t es
  | .predicate _ t as nt ps => .predicate e t as nt ps
  | .identity _ i us => .identity e i us
  | .claim _ a b s g us => .claim e a b s g us
  | .verify _ s us => .verify e s us
  | .reachable _ m vt vs ut uvs us => .reachable e m vt vs ut uvs us

/-- What the node is. -/
def kind : Node → Kind
  | .leaf _ v => v.kind
  | .dict _ _ _ => .dict
  | .set _ _ _ => .set
  | .predicate _ _ _ _ _ => .predicate
  | .identity _ i _ => i.kind
  | .claim _ a _ _ _ _ => a.kind
  | .verify _ _ _ => .verify
  | .reachable _ _ _ _ _ _ _ => .reachable

/-- A text without expiration. -/
def ofString (s : String) : Node := .leaf none (.string s)

/-- Bytes without expiration. -/
def ofBlob (bytes : List UInt8) : Node := .leaf none (.blob bytes)

/-- The text of a text node. -/
def string? : Node → Option String
  | .leaf _ (.string s) => some s
  | _ => none

/-- Whether the node is a literal. -/
def isLeaf : Node → Bool
  | .leaf _ _ => true
  | _ => false

/-- Whether the node itself is a smart node. -/
def isSmart : Node → Bool
  | .identity _ _ _ | .claim _ _ _ _ _ _ | .verify _ _ _ | .reachable _ _ _ _ _ _ _ => true
  | _ => false

mutual

/-- Whether no smart node occurs, at any depth. -/
def isPlain : Node → Bool
  | .leaf _ _ => true
  | .dict _ _ ps => arePlainEntries ps
  | .set _ _ es => arePlain es
  | .predicate _ _ as _ ps => arePlain as && arePlainEntries ps
  | .identity _ _ _ | .claim _ _ _ _ _ _ | .verify _ _ _ | .reachable _ _ _ _ _ _ _ => false
termination_by structural n => n

/-- Whether every node of a list is plain. -/
def arePlain : List Node → Bool
  | [] => true
  | n :: ns => isPlain n && arePlain ns
termination_by structural ns => ns

/-- Whether every key and every value of a list of entries is plain. -/
def arePlainEntries : List (Node × Node) → Bool
  | [] => true
  | (k, v) :: ps => isPlain k && isPlain v && arePlainEntries ps
termination_by structural ps => ps

end

@[simp] theorem expiry_withExpiry (e : Expiry) (n : Node) : (n.withExpiry e).expiry = e := by
  cases n <;> rfl

@[simp] theorem kind_withExpiry (e : Expiry) (n : Node) : (n.withExpiry e).kind = n.kind := by
  cases n <;> rfl

@[simp] theorem withExpiry_withExpiry (d e : Expiry) (n : Node) :
    (n.withExpiry d).withExpiry e = n.withExpiry e := by
  cases n <;> rfl

end Node

end PeerRecords
