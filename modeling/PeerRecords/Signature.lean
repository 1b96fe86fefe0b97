import PeerRecords.Node.Canonical

/-
  Signed statements.
  A signature is over the signer's name and the canonical bytes of the statement. A keyring signs
  as its local peer and checks the signatures of the peers it trusts; a digest keyring does both
  with a secret that it shares with each peer.
-/

namespace PeerRecords

/-- The ability to sign as one peer and to check the signatures of others. -/
structure Keyring where
  localPeer : PeerId
  sign : List UInt8 → List UInt8
  verify : PeerId → List UInt8 → List UInt8 → Bool

/-- A statement with its signer and signature. -/
structure Signature where
  signer : PeerId
  statement : Node
  signature : List UInt8

namespace Signature

/-- The bytes that are signed: the signer's name after its length, then the statement. -/
def message (signer : PeerId) (statement : Node) : List UInt8 :=
  Node.lengthPrefixed (Utf8.bytes signer.name) ++ statement.canonical

/-- The statement signed by the keyring's local peer. -/
def create (keyring : Keyring) (statement : Node) : Signature :=
  ⟨keyring.localPeer, statement, keyring.sign (message keyring.localPeer statement)⟩

/-- Whether the keyring accepts the signature. -/
def verifies (s : Signature) (keyring : Keyring) : Bool :=
  keyring.verify s.signer (message s.signer s.statement) s.signature

end Signature

/-- Secrets shared with peers; of two secrets for one peer the first counts. -/
structure SharedSecrets where
  localPeer : PeerId
  secrets : List (PeerId × List UInt8)

namespace SharedSecrets

/-- A keyring that trusts its local peer only. -/
def create (localPeer : PeerId) (secret : List UInt8) : SharedSecrets :=
  ⟨localPeer, [(localPeer, secret)]⟩

/-- The keyring with a secret for one more peer, in place of the one it has had. -/
def trust (k : SharedSecrets) (peer : PeerId) (secret : List UInt8) : SharedSecrets :=
  { k with secrets := (peer, secret) :: k.secrets }

/-- The secret shared with a peer. -/
def secret? (k : SharedSecrets) (peer : PeerId) : Option (List UInt8) :=
  (k.secrets.find? fun s => s.1 == peer).map (·.2)

/-- The digest of a message under a secret. -/
def keyedDigest (secret message : List UInt8) : List UInt8 :=
  Sha256.digest (Node.lengthPrefixed secret ++ message)

/-- The keyring that signs and checks with the shared secrets. -/
def toKeyring (k : SharedSecrets) : Keyring where
  localPeer := k.localPeer
  sign message := keyedDigest ((k.secret? k.localPeer).getD []) message
  verify peer message signature :=
    (k.secret? peer).any fun secret => keyedDigest secret message == signature

end SharedSecrets

end PeerRecords
