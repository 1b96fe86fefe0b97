import PeerRecords.Multiaddr.Value
import PeerRecords.Text.Quoted

/-
  Network addresses such as `/ip4/10.0.0.1/tcp/4001/p2p/QmPeer`: a list of components, each a
  protocol that stands alone or takes a value.
  `Component.Admissible` says which components there are; `parse` reads exactly the texts that
  admissible components write.
-/

namespace PeerRecords

namespace Multiaddr

/-- What a component of an address names. -/
inductive Protocol where
  | ip4 | ip6 | dns | dns4 | dns6 | tcp | udp | p2p | quic | quicV1 | ws | wss
deriving DecidableEq, Repr

namespace Protocol

/-- All protocols. -/
def all : List Protocol :=
  [ip4, ip6, dns, dns4, dns6, tcp, udp, p2p, quic, quicV1, ws, wss]

/-- The name in an address. -/
def name : Protocol → String
  | ip4 => "ip4"
  | ip6 => "ip6"
  | dns => "dns"
  | dns4 => "dns4"
  | dns6 => "dns6"
  | tcp => "tcp"
  | udp => "udp"
  | p2p => "p2p"
  | quic => "quic"
  | quicV1 => "quic-v1"
  | ws => "ws"
  | wss => "wss"

/-- The protocol of a name. -/
def ofName? (s : String) : Option Protocol := all.find? fun p => p.name == s

/-- Whether a value follows the name. -/
def isValued : Protocol → Bool
  | quic | quicV1 | ws | wss => false
  | _ => true

/-- Whether the value is one that the protocol takes. -/
def accepts (p : Protocol) (value : String) : Bool :=
  match p with
  | ip4 => isIp4 value.toList
  | ip6 => isIp6 value.toList
  | tcp | udp => isPort value.toList
  | p2p => isPlainName value
  | dns | dns4 | dns6 => isHostName value.toList
  | quic | quicV1 | ws | wss => true

theorem ofName?_name (p : Protocol) : ofName? p.name = some p := by
  cases p <;> decide

end Protocol

/-- A protocol with its value, if it takes one. -/
structure Component where
  protocol : Protocol
  value : Option String
deriving DecidableEq, Repr

namespace Component

/-- A value stands exactly where the protocol takes one, and is one that it accepts. -/
def Admissible (c : Component) : Prop :=
  match c.value with
  | none => c.protocol.isValued = false
  | some v => c.protocol.isValued = true ∧ c.protocol.accepts v = true

instance (c : Component) : Decidable c.Admissible := by
  unfold Admissible
  cases c.value <;> infer_instance

/-- The name and the value, each after a slash. -/
def text (c : Component) : List Char :=
  '/' :: c.protocol.name.toList ++
    match c.value with
    | some v => '/' :: v.toList
    | none => []

end Component

/-- Why a text is no address. -/
inductive Fault where
  | noLeadingSlash
  | unknownProtocol (name : String)
  | missingValue (name : String)
  | badValue (name value : String)
deriving DecidableEq, Repr

/-- The reason in words. -/
def Fault.message : Fault → String
  | noLeadingSlash => "must start with '/'"
  | unknownProtocol name => s!"unknown protocol {Text.quoted name}"
  | missingValue name => s!"{name} needs a value"
  | badValue name value => s!"bad {name} value {Text.quoted value}"

/-- Reads the segments between slashes: a name, then its value if it takes one. -/
def readComponents : List String → Except Fault (List Component)
  | [] => .ok []
  | name :: rest =>
    match Protocol.ofName? name with
    | none => .error (.unknownProtocol name)
    | some p =>
      if p.isValued then
        match rest with
        | [] => .error (.missingValue name)
        | value :: rest' =>
          if p.accepts value then do
            let cs ← readComponents rest'
            .ok (⟨p, some value⟩ :: cs)
          else .error (.badValue name value)
      else do
        let cs ← readComponents rest
        .ok (⟨p, none⟩ :: cs)

end Multiaddr

/-- A network address: its components in order. -/
structure Multiaddr where
  components : List Multiaddr.Component
deriving DecidableEq, Repr

namespace Multiaddr

/-- The text of an address. -/
def text (a : Multiaddr) : String := String.ofList (a.components.flatMap Component.text)

/-- The peer that the address names first. -/
def peer? (a : Multiaddr) : Option PeerId :=
  a.components.findSome? fun c =>
    match c.protocol with
    | .p2p => c.value.map PeerId.mk
    | _ => none

/-- Reads an address, or says what is wrong with its text. -/
def parse (s : String) : Except Fault Multiaddr :=
  match s.toList with
  | '/' :: rest => do
    let cs ← readComponents ((rest.splitOn '/').map String.ofList)
    .ok ⟨cs⟩
  | _ => .error .noLeadingSlash

end Multiaddr

end PeerRecords
