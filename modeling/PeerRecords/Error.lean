import PeerRecords.Node.Pretty

/-
  What can go wrong, as causes; `Error.message` is the one place that puts them into words.
-/

namespace PeerRecords

/-- One side of a mismatch. -/
inductive Shape where
  | kind (k : Kind)
  | set (tag : String)
  | record (key : String)
  | peer (id : PeerId)
  | conflicting (k : Kind)
deriving DecidableEq, Repr

/-- The side in words. -/
def Shape.text : Shape → String
  | kind k => k.name
  | set tag => s!"set '{tag}'"
  | record key => s!"record {Text.quoted key}"
  | peer id => s!"peer {id.name}"
  | conflicting k => s!"conflicting {k.name}"

/-- Why a predicate with a meaning of its own cannot be assembled. -/
inductive Malformed where
  | argumentCount (tag : String) (count : Nat)
  | notAString (tag : String) (found : Kind)
  | invalidPeerId (text : String)
  | invalidContentId (text : String)
  | missingSigner (tag : String)
  | missingSignature (tag : String)
  | unsignedClaim
  | unknownCheck
  | unverifiedNotASet (found : Kind)
deriving DecidableEq, Repr

/-- The reason in words. -/
def Malformed.message : Malformed → String
  | argumentCount tag count => s!"{tag}: expected one positional argument, got {count}"
  | notAString tag found => s!"{tag}: expected a string, got {found.name}"
  | invalidPeerId text => s!"invalid peer id {Text.quoted text}"
  | invalidContentId text => s!"cid: invalid content id {Text.quoted text}"
  | missingSigner tag => s!"{tag}: missing string argument 'by'"
  | missingSignature tag => s!"{tag}: missing blob argument 'signature'"
  | unsignedClaim => "verify: expected a signed(..) statement"
  | unknownCheck => "reachable: check must be \"dial\" or \"connection\""
  | unverifiedNotASet found => s!"reachable: unverified must be a set, got {found.name}"

/-- What is wrong with a message of the exchange, or with the literals it holds. -/
inductive ProtocolFault where
  | intLiteral (text : String)
  | floatLiteral (text : String)
  | keyNotUtf8
  | writerNotAString
  | refused (reason : String)
deriving DecidableEq, Repr

/-- The fault in words. -/
def ProtocolFault.message : ProtocolFault → String
  | intLiteral text => s!"invalid int literal {Text.quoted text}"
  | floatLiteral text => s!"invalid float literal {Text.quoted text}"
  | keyNotUtf8 => "key is not valid utf-8"
  | writerNotAString => "writer key is not a string"
  | refused reason => reason

/-- Why an operation fails. -/
inductive Error where
  /-- The grammar has no rule for a node of this kind. -/
  | noMatchingRule (found : Kind)
  /-- Two nodes do not fit together. -/
  | mismatch (expected found : Shape)
  /-- A dict was needed. -/
  | notADict (found : Kind)
  /-- A key is there twice. -/
  | duplicateKey (key : Node)
  /-- A predicate with a meaning of its own has the wrong arguments. -/
  | malformed (reason : Malformed)
  /-- A signature does not check. -/
  | invalidSignature (signer : PeerId)
  /-- The grammar was given no keyring. -/
  | missingKeyring
  /-- A text is no network address. -/
  | invalidAddress (text : String) (fault : Multiaddr.Fault)
  /-- Bytes are not JSON, or not of the right shape. -/
  | format
  /-- A message is JSON of the right shape and wrong all the same. -/
  | protocol (fault : ProtocolFault)

/-- The error in words. -/
def Error.message : Error → String
  | noMatchingRule found => s!"No assembler matched {found.name}"
  | mismatch expected found => s!"Type mismatch: expected {expected.text}, found {found.text}"
  | notADict found => s!"Expected a dict, found {found.name}"
  | duplicateKey key => s!"Duplicate key: {key.pretty}"
  | malformed reason => s!"Malformed smart tag: {reason.message}"
  | invalidSignature signer => s!"Invalid signature by {signer.name}"
  | missingKeyring => "Missing capability: keyring"
  | invalidAddress text fault => s!"Invalid multiaddress: {text}: {fault.message}"
  | format => "Format error"
  | protocol fault => s!"Protocol error: {fault.message}"

/-- The mismatch of two kinds. -/
def Error.kinds (expected found : Kind) : Error := .mismatch (.kind expected) (.kind found)

end PeerRecords
