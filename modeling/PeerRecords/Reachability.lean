import PeerRecords.Node.Dict

/-
  Which addresses of a peer can be reached.
  A probe answers one query at a time and may go by all the queries before it. A candidate is a
  text or a plain `multiaddress(..)`; two candidates are the same address when they have the same
  normal text. `outstanding` keeps the unverified candidates whose address is not verified.
-/

namespace PeerRecords

/-- One question to the network. -/
structure ProbeQuery where
  mode : ProbeMode
  peer : Option PeerId
  addr : Multiaddr
  deadline : Option Instant
deriving DecidableEq

/-- A question with its answer. -/
structure ProbeCall where
  query : ProbeQuery
  answer : Bool
deriving DecidableEq

/-- The network: what it answers after the calls so far. -/
abbrev Probe := List ProbeCall → ProbeQuery → Bool

/-- A probe that goes by the mode and the address alone. -/
def Probe.ofPredicate (reaches : ProbeMode → Multiaddr → Bool) : Probe :=
  fun _ q => reaches q.mode q.addr

namespace Node

/-- The text that a candidate gives as its address. -/
def candidateText? : Node → Option String
  | .leaf _ (.string s) => some s
  | .predicate _ "multiaddress" [only] _ _ => only.string?
  | _ => none

/-- The address of a candidate. -/
def candidateAddr? (n : Node) : Option Multiaddr :=
  n.candidateText?.bind fun s => (Multiaddr.parse s).toOption

/-- The normal text of a candidate's address. -/
def normalAddress? (n : Node) : Option String := n.candidateAddr?.map (·.text)

/-- Whether the candidate's address is among the verified ones. -/
def isSettled (verified : List Node) (candidate : Node) : Bool :=
  candidate.normalAddress?.any fun addr => (ofString addr).isIn verified

/-- The unverified candidates whose address is not verified. -/
def outstanding (verified unverified : List Node) : List Node :=
  unverified.filter fun candidate => !candidate.isSettled verified

end Node

end PeerRecords
