import PeerRecords.Reachability

/-
  Folding a newer write into a document.
  A literal gives way to the newer one of its kind; dicts and named arguments are updated key by
  key and keep the old tag; sets and arguments take in what they do not hold; smart nodes of one
  kind take the newer content and fold the user's fields. What is written again lives until the
  later of the two expirations. Nodes that do not fit together are a mismatch.
-/

namespace PeerRecords

/-- Adds an element, or refreshes the expiration of the first equal one. -/
def NodeSet.refresh (n : Node) : List Node → List Node
  | [] => [n]
  | m :: ms =>
    if m.eqv n then m.withExpiry (Expiry.combine m.expiry n.expiry) :: ms
    else m :: NodeSet.refresh n ms

/-- Adds elements or refreshes them, one by one. -/
def NodeSet.refreshAll (old new : List Node) : List Node :=
  new.foldl (fun acc n => NodeSet.refresh n acc) old

/-- The first entry whose key is equal to `key` takes what `step` makes of its value, and its key
is refreshed; without one the entry is added. -/
def Entries.foldIn (key value : Node) (step : Node → Except Error Node) :
    List (Node × Node) → Except Error (List (Node × Node))
  | [] => .ok [(key, value)]
  | p :: ps =>
    if p.1.eqv key then do
      let v ← step p.2
      .ok ((p.1.withExpiry (Expiry.combine p.1.expiry key.expiry), v) :: ps)
    else do
      let qs ← Entries.foldIn key value step ps
      .ok (p :: qs)

/-- The newer identity of a smart node; a record keeps its key and a peer its id. -/
def Identity.update : Identity → Identity → Except Error Identity
  | .record k, .record k' =>
    if k' = k then .ok (.record k) else .error (.mismatch (.record k) (.record k'))
  | .peer p, .peer p' =>
    if p' = p then .ok (.peer p) else .error (.mismatch (.peer p) (.peer p'))
  | .cid _, .cid value => .ok (.cid value)
  | .multiaddress _, .multiaddress addr => .ok (.multiaddress addr)
  | a, b => .error (.kinds a.kind b.kind)

/-- Whether two sets may be joined: their tags agree. -/
def checkTags (old new : String) : Except Error Unit :=
  if old = new then .ok () else .error (.mismatch (.set old) (.set new))

namespace Node

mutual

/-- The old document with the new one folded in. -/
def update : Node → Node → Except Error Node
  | .leaf e v, .leaf e' v' =>
    if v.kind = v'.kind then .ok (.leaf (Expiry.combine e e') v')
    else .error (.kinds v.kind v'.kind)
  | .dict e t ps, .dict e' _ qs => do
    let rs ← updateEntries ps qs
    .ok (.dict (Expiry.combine e e') t rs)
  | .set e t es, .set e' t' fs => do
    checkTags t t'
    .ok (.set (Expiry.combine e e') t (NodeSet.refreshAll es fs))
  | .predicate e t as nt ps, .predicate e' _ bs _ qs => do
    let rs ← updateEntries ps qs
    .ok (.predicate (Expiry.combine e e') t (NodeSet.refreshAll as bs) nt rs)
  | .identity e i us, .identity e' i' us' => do
    let i ← Identity.update i i'
    let rs ← updateEntries us us'
    .ok (.identity (Expiry.combine e e') i rs)
  | .claim e a _ _ _ us, .claim e' a' b' s' g' us' =>
    if a = a' then do
      let rs ← updateEntries us us'
      .ok (.claim (Expiry.combine e e') a' b' s' g' rs)
    else .error (.kinds a.kind a'.kind)
  | .verify e _ us, .verify e' s' us' => do
    let rs ← updateEntries us us'
    .ok (.verify (Expiry.combine e e') s' rs)
  | .reachable e _ vt vs ut uvs us, .reachable e' m' vt' vs' ut' uvs' us' => do
    checkTags vt vt'
    checkTags ut ut'
    let ws := NodeSet.refreshAll vs vs'
    let rs ← updateEntries us us'
    .ok (.reachable (Expiry.combine e e') m' vt ws ut
      (outstanding ws (NodeSet.refreshAll uvs uvs')) rs)
  | a, b => .error (.kinds a.kind b.kind)
termination_by structural _ n => n

/-- The old entries with the new ones folded in, in order. -/
def updateEntries : List (Node × Node) → List (Node × Node) → Except Error (List (Node × Node))
  | ps, [] => .ok ps
  | ps, (k, v) :: qs => do
    let rs ← Entries.foldIn k v (fun old => update old v) ps
    updateEntries rs qs
termination_by structural _ qs => qs

end

end Node

end PeerRecords
