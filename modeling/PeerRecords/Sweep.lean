import PeerRecords.Node.Basic

/-
  The sweep of expired parts.
  A literal, predicate or smart node goes when it has expired. A dict goes by its values and a set
  by its elements: it goes once nothing is left in it and it has expired itself or, without an
  expiration, has lost its last part in this sweep; one that was written empty stays. What goes
  inside a container that stays is taken out of it and counted.
-/

namespace PeerRecords.Node

/-- Whether a container that had `before` parts and keeps `after` goes. -/
def isSpent (e : Expiry) (now : Instant) (before after : Nat) : Bool :=
  after == 0 &&
    match e with
    | some t => decide (t ≤ now)
    | none => decide (after < before)

mutual

/-- What is left of a document, and how many parts were taken out of it. -/
def sweep (now : Instant) : Node → Option Node × Nat
  | .dict e t ps =>
    let (qs, removed) := sweepEntries now ps
    (if isSpent e now ps.length qs.length then none else some (.dict e t qs), removed)
  | .set e t es =>
    let (fs, removed) := sweepAll now es
    (if isSpent e now es.length fs.length then none else some (.set e t fs), removed)
  | n => (if Expiry.isExpired n.expiry now then none else some n, 0)
termination_by structural n => n

/-- What is left of the elements of a set. -/
def sweepAll (now : Instant) : List Node → List Node × Nat
  | [] => ([], 0)
  | n :: ns =>
    let (left, inside) := sweep now n
    let (ms, removed) := sweepAll now ns
    match left with
    | some m => (m :: ms, inside + removed)
    | none => (ms, inside + 1 + removed)
termination_by structural ns => ns

/-- What is left of the entries of a dict. -/
def sweepEntries (now : Instant) : List (Node × Node) → List (Node × Node) × Nat
  | [] => ([], 0)
  | (k, v) :: ps =>
    let (left, inside) := sweep now v
    let (qs, removed) := sweepEntries now ps
    match left with
    | some w => ((k, w) :: qs, inside + removed)
    | none => (qs, inside + 1 + removed)
termination_by structural ps => ps

end

end PeerRecords.Node
