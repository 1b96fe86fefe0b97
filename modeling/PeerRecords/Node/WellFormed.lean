import PeerRecords.Node.Plain

/-
  Well-formed documents: at every depth, inside smart nodes too, the keys of each dict and the
  elements of each set are pairwise unequal. Arguments of a predicate may repeat.
-/

namespace PeerRecords.Node

/-- Whether no node of the list is equal to a later one. -/
def areDistinct : List Node → Bool
  | [] => true
  | n :: ns => ns.all (fun m => !n.eqv m) && areDistinct ns

mutual

/-- Whether keys and elements are pairwise unequal at every depth. -/
def isWellFormed : Node → Bool
  | .leaf _ _ => true
  | .dict _ _ ps => areDistinct (ps.map (·.1)) && allWellFormedEntries ps
  | .set _ _ es => areDistinct es && allWellFormed es
  | .predicate _ _ as _ ps =>
    allWellFormed as && areDistinct (ps.map (·.1)) && allWellFormedEntries ps
  | .identity _ _ us => areDistinct (us.map (·.1)) && allWellFormedEntries us
  | .claim _ _ _ s _ us =>
    isWellFormed s && areDistinct (us.map (·.1)) && allWellFormedEntries us
  | .verify _ s us => isWellFormed s && areDistinct (us.map (·.1)) && allWellFormedEntries us
  | .reachable _ _ _ vs _ uvs us =>
    areDistinct vs && allWellFormed vs && areDistinct uvs && allWellFormed uvs
      && areDistinct (us.map (·.1)) && allWellFormedEntries us
termination_by structural n => n

/-- Whether every node of a list is well-formed. -/
def allWellFormed : List Node → Bool
  | [] => true
  | n :: ns => isWellFormed n && allWellFormed ns
termination_by structural ns => ns

/-- Whether every key and every value of a list of entries is well-formed. -/
def allWellFormedEntries : List (Node × Node) → Bool
  | [] => true
  | (k, v) :: ps => isWellFormed k && isWellFormed v && allWellFormedEntries ps
termination_by structural ps => ps

end

/-- A document whose keys and elements are pairwise unequal at every depth. -/
def WellFormed (n : Node) : Prop := n.isWellFormed = true

instance (n : Node) : Decidable n.WellFormed := inferInstanceAs (Decidable (_ = true))

end PeerRecords.Node
