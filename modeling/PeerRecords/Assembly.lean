import PeerRecords.Grammar

/-
  Assembly: a plain document becomes a semantic one.
  Every node that is built carries the expiration of the context. Predicates whose tag has a rule
  become what the rule makes of them, at any depth; the others, dicts and sets keep their form and
  their parts are assembled in order, each key before its value. Two keys may become equal only
  here, so keys are checked again.
-/

namespace PeerRecords.Grammar

/-- The first rule that does not decline. -/
def tryRules (ctx : Context) (n : Node) : List Rule → Except Error Node
  | [] => .error (.noMatchingRule n.kind)
  | rule :: rules =>
    match rule ctx n with
    | .error e => .error e
    | .ok (some m) => .ok m
    | .ok none => tryRules ctx n rules

/-- What the rules for everything else make of a node. -/
def fallback (g : Grammar) (ctx : Context) (n : Node) : Assembly Node :=
  .ofExcept (tryRules ctx n g.rules)

/-- Whether a key is the text of a reserved name. -/
def isReserved (reserved : List String) (key : Node) : Bool := key.string?.any reserved.contains

mutual

/-- The document that a grammar makes of a node. -/
def assemble (g : Grammar) (ctx : Context) : Node → Assembly Node
  | .leaf e v => if g.generic then pure (.leaf ctx.expiry v) else g.fallback ctx (.leaf e v)
  | .dict e t ps =>
    if g.generic then do
      let qs ← assembleEntries g ctx [] ps
      let qs ← .ofExcept (Dict.checkKeys qs)
      pure (.dict ctx.expiry t qs)
    else g.fallback ctx (.dict e t ps)
  | .set e t es =>
    if g.generic then do
      let fs ← assembleAll g ctx es
      pure (.set ctx.expiry t (fs.foldl NodeSet.addTo []))
    else g.fallback ctx (.set e t es)
  | .predicate e t as nt ps =>
    if g.generic then do
      let prepared ← match g.ruleFor? t with
        | some rule => .ofExcept (rule.prepare ctx e as nt ps)
        | none => pure .declined
      match prepared with
      | .done n => pure n
      | .awaits reserved finish => do
        let us ← assembleEntries g ctx reserved ps
        let us ← .ofExcept (Dict.checkKeys us)
        finish us
      | .declined => do
        let bs ← assembleAll g ctx as
        let qs ← assembleEntries g ctx [] ps
        let qs ← .ofExcept (Dict.checkKeys qs)
        pure (.predicate ctx.expiry t bs nt qs)
    else g.fallback ctx (.predicate e t as nt ps)
  | .identity e i us => g.fallback ctx (.identity e i us)
  | .claim e a b s sig us => g.fallback ctx (.claim e a b s sig us)
  | .verify e s us => g.fallback ctx (.verify e s us)
  | .reachable e m vt vs ut uvs us => g.fallback ctx (.reachable e m vt vs ut uvs us)
termination_by structural n => n

/-- The documents that a grammar makes of the nodes of a list, in order. -/
def assembleAll (g : Grammar) (ctx : Context) : List Node → Assembly (List Node)
  | [] => pure []
  | n :: ns => do
    let m ← assemble g ctx n
    let ms ← assembleAll g ctx ns
    pure (m :: ms)
termination_by structural ns => ns

/-- The entries that a grammar makes of a list, in order and without the reserved names. -/
def assembleEntries (g : Grammar) (ctx : Context) (reserved : List String) :
    List (Node × Node) → Assembly (List (Node × Node))
  | [] => pure []
  | (k, v) :: ps =>
    if isReserved reserved k then assembleEntries g ctx reserved ps
    else do
      let k' ← assemble g ctx k
      let v' ← assemble g ctx v
      let qs ← assembleEntries g ctx reserved ps
      pure ((k', v') :: qs)
termination_by structural ps => ps

end

end PeerRecords.Grammar
