import PeerRecords.Node.Dict

/-
  The part of a dict that a selector asks for.
  For each key of the selector that the dict has: under an empty dict, the dict's sub-dict if the
  tags agree; under any other dict, the projection of the sub-dict; under anything else, the value
  if it is of that sort. Sorts are coarser than kinds: all smart nodes are of one sort.
-/

namespace PeerRecords

/-- Whether two nodes are of one sort. -/
def Node.sameSort : Node → Node → Bool
  | .leaf _ a, .leaf _ b => decide (a.kind = b.kind)
  | .dict _ _ _, .dict _ _ _ => true
  | .set _ _ _, .set _ _ _ => true
  | .predicate _ _ _ _ _, .predicate _ _ _ _ _ => true
  | a, b => a.isSmart && b.isSmart

namespace Dict

mutual

/-- What a selector's value takes of the value found at its key. -/
def projectValue : Node → Node → Option Node
  | .dict _ t sel, found =>
    match found with
    | .dict e u ps =>
      if sel.isEmpty then if t = u then some found else none
      else some (.dict e u (projectEntries ps [] sel))
    | _ => none
  | want, found => if want.sameSort found then some found else none
termination_by structural want => want

/-- The entries taken of a source, on top of those taken before. -/
def projectEntries (source taken : List (Node × Node)) : List (Node × Node) → List (Node × Node)
  | [] => taken
  | (k, want) :: sel =>
    match (Entries.lookup? (isKey k) source).bind fun found => projectValue want found with
    | some n => projectEntries source (Entries.put (isKey k) k n taken) sel
    | none => projectEntries source taken sel
termination_by structural sel => sel

end

/-- The part of a dict that a selector asks for, with the dict's tag. -/
def project (source selector : Dict) : Dict :=
  ⟨source.tag, projectEntries source.entries [] selector.entries⟩

end Dict

end PeerRecords
