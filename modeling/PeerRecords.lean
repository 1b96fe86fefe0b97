import PeerRecords.Main
import PeerRecords.Merge
import PeerRecords.Exchange.Answer
import PeerRecords.Node.WellFormed
import PeerRecords.Proofs.Node.Parts
import PeerRecords.Proofs.Node.Equality
import PeerRecords.Proofs.Node.PlainForm
import PeerRecords.Proofs.Node.Distinct
import PeerRecords.Proofs.Node.Equivalence
import PeerRecords.Proofs.Assembly
import PeerRecords.Proofs.Update
import PeerRecords.Proofs.Update.Rows
import PeerRecords.Proofs.Store.Runs
import PeerRecords.Proofs.Store.Isolation
import PeerRecords.Proofs.Sweep
import PeerRecords.Proofs.Sweep.Collectible
import PeerRecords.Proofs.Sweep.Repeated
import PeerRecords.Proofs.Sweep.Horizon
import PeerRecords.Proofs.Claims
import PeerRecords.Proofs.Uniqueness
import PeerRecords.Proofs.Lifetimes
import PeerRecords.Proofs.Json.Parser
import PeerRecords.Proofs.Wire.Json
import PeerRecords.Proofs.Decimal
import PeerRecords.Proofs.Wire.Basic
import PeerRecords.Proofs.Wire.Text
import PeerRecords.Proofs.Wire.RoundTrip
import PeerRecords.Proofs.Sendable
import PeerRecords.Proofs.Exchange.Documents
import PeerRecords.Proofs.Exchange.Answers
import PeerRecords.Proofs.Json.Token
import PeerRecords.Proofs.Text.Utf8
import PeerRecords.Proofs.Bytes
import PeerRecords.Proofs.Node.Canonical
import PeerRecords.Proofs.Signature
import PeerRecords.Proofs.Node.View
import PeerRecords.Proofs.Node.Timeless
import PeerRecords.Proofs.Idempotence
import PeerRecords.Proofs.Multiaddr
import PeerRecords.Proofs.Rules
import PeerRecords.Proofs.Likewise
import PeerRecords.Proofs.Retry
import PeerRecords.Proofs.Reassembly
import PeerRecords.Proofs.Meaning
import PeerRecords.Proofs.Regrouping
import PeerRecords.Proofs.Candidates
import PeerRecords.Proofs.Associativity
import PeerRecords.Proofs.Transport
import PeerRecords.Proofs.Merge.Associativity
import PeerRecords.Proofs.Merge.Symmetry
import PeerRecords.Proofs.Merge.LastWriterWins
import PeerRecords.Proofs.Exchange.Writes
import PeerRecords.Proofs.Probing
import PeerRecords.Proofs.Reached
import PeerRecords.Proofs.Wire.Rereading
import PeerRecords.Proofs.Layout
import PeerRecords.Proofs.LongerLife
import PeerRecords.Proofs.Merge.Survival
import PeerRecords.Proofs.Rebuilding
import PeerRecords.Proofs.Rechecking
import PeerRecords.Proofs.Projection
import PeerRecords.Proofs.Node.Observers
import PeerRecords.Proofs.Update.Congruence
import PeerRecords.Proofs.Update.Commuting
import PeerRecords.Proofs.Node.OrderedMap
import PeerRecords.Proofs.Merge.WellFormed
import PeerRecords.Proofs.Assertion
import PeerRecords.Proofs.Preservation
