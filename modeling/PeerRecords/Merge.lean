import PeerRecords.Reachability

/-
  The symmetric join of two documents.
  Containers with one tag are joined part by part, smart nodes with one identity by their user
  fields and sets; equal literals stay. Everything else is a conflict, and a resolver says what
  becomes of it. A resolver may do more than choose, so merging runs in any monad.
-/

namespace PeerRecords

/-- What becomes of two nodes in conflict. -/
abbrev Resolver (m : Type → Type) := Node → Node → m Node

namespace Resolver

/-- The right-hand side stays. -/
def lastWriterWins : Resolver (Except Error) := fun _ b => .ok b

/-- No conflict is allowed. -/
def reject : Resolver (Except Error) := fun a b =>
  .error (.mismatch (.kind a.kind) (.conflicting b.kind))

end Resolver

namespace Node

variable {m : Type → Type} [Monad m]

/-- The right entries whose key is not on the left. -/
def unmatched (ps qs : List (Node × Node)) : List (Node × Node) :=
  qs.filter fun q => (Entries.lookup? (Dict.isKey q.1) ps).isNone

/-- What a resolver makes of two smart nodes, with the later of their expirations. -/
def resolved (e e' : Expiry) (outcome : m Node) : m Node := do
  let n ← outcome
  pure (n.withExpiry (Expiry.combine e e'))

mutual

/-- The join of two documents, with the later of their expirations. -/
def merge (resolve : Resolver m) : Node → Node → m Node
  | .leaf e v, .leaf e' v' =>
    if v.alike v' then pure (.leaf (Expiry.combine e e') v) else resolve (.leaf e v) (.leaf e' v')
  | .dict e t ps, .dict e' t' qs =>
    if t = t' then do
      let rs ← mergeEntries resolve ps qs
      pure (.dict (Expiry.combine e e') t (rs ++ unmatched ps qs))
    else resolve (.dict e t ps) (.dict e' t' qs)
  | .set e t es, .set e' t' fs =>
    if t = t' then pure (.set (Expiry.combine e e') t (fs.foldl NodeSet.addTo es))
    else resolve (.set e t es) (.set e' t' fs)
  | .predicate e t as nt ps, .predicate e' t' bs nt' qs =>
    if t = t' then do
      let rs ← mergeEntries resolve ps qs
      pure (.predicate (Expiry.combine e e') t (bs.foldl NodeSet.addTo as) nt
        (rs ++ unmatched ps qs))
    else resolve (.predicate e t as nt ps) (.predicate e' t' bs nt' qs)
  | .identity e i us, .identity e' i' us' =>
    if i.kind = i'.kind then
      if i' = i then do
        let rs ← mergeEntries resolve us us'
        pure (.identity (Expiry.combine e e') i (rs ++ unmatched us us'))
      else resolved e e' (resolve (.identity none i us) (.identity none i' us'))
    else resolve (.identity e i us) (.identity e' i' us')
  | .claim e a b s g us, .claim e' a' b' s' g' us' =>
    if a = a' then
      if b' = b ∧ s'.eqv s = true ∧ g' = g then do
        let rs ← mergeEntries resolve us us'
        pure (.claim (Expiry.combine e e') a b s g (rs ++ unmatched us us'))
      else resolved e e' (resolve (.claim none a b s g us) (.claim none a' b' s' g' us'))
    else resolve (.claim e a b s g us) (.claim e' a' b' s' g' us')
  | .verify e s us, .verify e' s' us' =>
    if s'.eqv s then do
      let rs ← mergeEntries resolve us us'
      pure (.verify (Expiry.combine e e') s (rs ++ unmatched us us'))
    else resolved e e' (resolve (.verify none s us) (.verify none s' us'))
  | .reachable e c vt vs ut uvs us, .reachable e' c' vt' vs' ut' uvs' us' =>
    if c' = c then do
      let rs ← mergeEntries resolve us us'
      let ws := vs'.foldl NodeSet.addTo vs
      pure (.reachable (Expiry.combine e e') c vt ws ut
        (outstanding ws (uvs'.foldl NodeSet.addTo uvs)) (rs ++ unmatched us us'))
    else resolved e e'
      (resolve (.reachable none c vt vs ut uvs us) (.reachable none c' vt' vs' ut' uvs' us'))
  | a, b => resolve a b
termination_by structural n => n

/-- The left entries, each joined with the first equal key on the right. -/
def mergeEntries (resolve : Resolver m) :
    List (Node × Node) → List (Node × Node) → m (List (Node × Node))
  | [], _ => pure []
  | (k, v) :: ps, qs => do
    let w ← match Entries.lookup? (Dict.isKey k) qs with
      | some other => merge resolve v other
      | none => pure v
    let rs ← mergeEntries resolve ps qs
    pure ((k, w) :: rs)
termination_by structural ps => ps

end

end Node

end PeerRecords
