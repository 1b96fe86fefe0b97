import PeerRecords.Reachability
import PeerRecords.Signature

/-
  Grammars: which predicates have a meaning of their own.
  A grammar is generic if it assembles literals, dicts, sets and predicates at all; it has at most
  one rule for each tag, and rules for what nothing else assembles. A tag rule looks at the
  arguments first (`TagRule.prepare`); what it then wants are the user's fields, assembled by the
  same grammar, to finish the smart node.
-/

namespace PeerRecords

/-- What an assembly knows besides its document. -/
structure Context where
  now : Instant := 0
  expiry : Expiry := none
  writer : Option PeerId := none
  deadline : Option Instant := none

namespace Context

/-- Whether the deadline is over. -/
def isLate (ctx : Context) : Bool := ctx.deadline.any fun d => decide (d ≤ ctx.now)

end Context

/-- An assembly: it may fail, and it keeps the calls to the probe either way. -/
abbrev Assembly := ExceptT Error (StateM (List ProbeCall))

namespace Assembly

/-- A step without calls. -/
def ofExcept {α : Type} (r : Except Error α) : Assembly α := ExceptT.mk (pure r)

/-- The outcome of an assembly, and its calls to the probe. -/
def outcome {α : Type} (a : Assembly α) : Except Error α × List ProbeCall := a.run.run []

end Assembly

/-- A rule of its own: it gives a node, declines with `none`, or fails. -/
abbrev Rule := Context → Node → Except Error (Option Node)

/-- The rule for a tag. -/
inductive TagRule where
  | record
  | peer
  | cid
  | multiaddress
  | signed
  | sign (keyring : Option Keyring)
  | verify (keyring : Option Keyring)
  | verified (keyring : Option Keyring)
  | reachable (probe : Probe)
  | custom (tag : String) (rule : Rule)

/-- The tag that a rule is for. -/
def TagRule.tag : TagRule → String
  | record => "record"
  | peer => "peer"
  | cid => "cid"
  | multiaddress => "multiaddress"
  | signed => "signed"
  | sign _ => "sign"
  | verify _ => "verify"
  | verified _ => "verified"
  | reachable _ => "reachable"
  | custom tag _ => tag

/-- What a tag rule makes of the arguments. -/
inductive Prepared where
  /-- The rule has no opinion. -/
  | declined
  /-- The node is there. -/
  | done (n : Node)
  /-- The node needs the named arguments other than the reserved ones, assembled. -/
  | awaits (reserved : List String) (finish : List (Node × Node) → Assembly Node)

/-! ## Arguments -/

/-- The argument of a predicate that takes one. -/
def onlyArgument (tag : String) : List Node → Except Error Node
  | [only] => .ok only
  | args => .error (.malformed (.argumentCount tag args.length))

/-- The text of a predicate that takes one. -/
def onlyText (tag : String) (args : List Node) : Except Error String := do
  let arg ← onlyArgument tag args
  match arg.string? with
  | some s => .ok s
  | none => .error (.malformed (.notAString tag arg.kind))

/-- The value of a named argument. -/
def namedArgument? (name : String) (named : List (Node × Node)) : Option Node :=
  Entries.lookup? (Dict.isText name) named

/-- A peer id that stands in a document. -/
def readPeerId (s : String) : Except Error PeerId :=
  match PeerId.parse? s with
  | some p => .ok p
  | none => .error (.malformed (.invalidPeerId s))

/-- A network address that stands in a document. -/
def readAddress (s : String) : Except Error Multiaddr :=
  match Multiaddr.parse s with
  | .ok addr => .ok addr
  | .error fault => .error (.invalidAddress s fault)

/-- Reads `tag(statement, by: "..", signature: blob)`. -/
def readSignature (tag : String) (args : List Node) (named : List (Node × Node)) :
    Except Error Signature := do
  let statement ← onlyArgument tag args
  let signer ← match (namedArgument? "by" named).bind Node.string? with
    | some s => readPeerId s
    | none => .error (.malformed (.missingSigner tag))
  match namedArgument? "signature" named with
  | some (.leaf _ (.blob bytes)) => .ok ⟨signer, statement.disassemble, bytes⟩
  | _ => .error (.malformed (.missingSignature tag))

/-- The keyring, if the grammar was given one. -/
def requireKeyring : Option Keyring → Except Error Keyring
  | some k => .ok k
  | none => .error .missingKeyring

/-- The named arguments of a claim that are not the user's. -/
def claimNames : List String := ["by", "signature"]

/-- The named arguments of a reachability check that are not the user's. -/
def reachableNames : List String := ["check", "unverified"]

/-- The mode that a check asks for; dialing unless it says otherwise. -/
def readMode (named : List (Node × Node)) : Except Error ProbeMode :=
  match namedArgument? "check" named with
  | none => .ok .dial
  | some n =>
    match n.string?.bind ProbeMode.ofName? with
    | some mode => .ok mode
    | none => .error (.malformed .unknownCheck)

/-- The candidates that an earlier check left unverified. -/
def readRetried (named : List (Node × Node)) : Except Error (List Node) :=
  match namedArgument? "unverified" named with
  | none => .ok []
  | some (.set _ _ es) => .ok es
  | some n => .error (.malformed (.unverifiedNotASet n.kind))

/-! ## Probing -/

/-- One question to the network; after the deadline nothing is asked and the answer is no. -/
def ask (probe : Probe) (ctx : Context) (mode : ProbeMode) (addr : Multiaddr) : Assembly Bool :=
  if ctx.isLate then pure false
  else do
    let calls ← get
    let query : ProbeQuery := ⟨mode, ctx.writer, addr, ctx.deadline⟩
    let answer := probe calls query
    set (calls ++ [⟨query, answer⟩])
    pure answer

/-- Sorts candidates into the verified ones, by their normal address, and the others, as they
are; both on top of what is there. -/
def probeAll (probe : Probe) (ctx : Context) (mode : ProbeMode) :
    List Node → List Node × List Node → Assembly (List Node × List Node)
  | [], found => pure found
  | c :: cs, (verified, unverified) =>
    match c.candidateAddr? with
    | none =>
      probeAll probe ctx mode cs (verified, NodeSet.addTo unverified (c.withExpiry ctx.expiry))
    | some addr => do
      if ← ask probe ctx mode addr then
        probeAll probe ctx mode cs
          (NodeSet.addTo verified (.leaf ctx.expiry (.string addr.text)), unverified)
      else probeAll probe ctx mode cs (verified, NodeSet.addTo unverified (c.withExpiry ctx.expiry))

/-! ## Tag rules -/

/-- The node of an identity once its user fields are there. -/
def finishIdentity (ctx : Context) (id : Identity) : Prepared :=
  .awaits [] fun user => pure (.identity ctx.expiry id user)

/-- The claim of a signature once its user fields are there. -/
def finishClaim (ctx : Context) (assurance : Assurance) (s : Signature) (reserved : List String) :
    Prepared :=
  .awaits reserved fun user =>
    pure (.claim ctx.expiry assurance s.signer s.statement s.signature user)

/-- A claim that is to be checked: verified if the keyring accepts it, and otherwise kept as it
stands. -/
def prepareVerify (keyring : Option Keyring) (ctx : Context) (tag : String) (args : List Node) :
    Except Error Prepared := do
  let k ← requireKeyring keyring
  let claim ← onlyArgument tag args
  match claim with
  | .predicate _ "signed" inner _ fields => do
    let s ← readSignature "signed" inner fields
    if s.verifies k then .ok (finishClaim ctx .verified s [])
    else .ok (.awaits [] fun user => pure (.verify ctx.expiry claim.disassemble user))
  | _ => .error (.malformed .unsignedClaim)

/-- The reachable addresses among the arguments and the candidates left before. -/
def prepareReachable (probe : Probe) (ctx : Context) (args : List Node)
    (named : List (Node × Node)) : Except Error Prepared := do
  let mode ← readMode named
  let retried ← readRetried named
  .ok (.awaits reachableNames fun user => do
    let (verified, unverified) ← probeAll probe ctx mode (args ++ retried) ([], [])
    pure (.reachable ctx.expiry mode "" verified "" (Node.outstanding verified unverified) user))

/-- What a rule makes of a predicate with its tag. -/
def TagRule.prepare (rule : TagRule) (ctx : Context) (expiry : Expiry) (args : List Node)
    (namedTag : String) (named : List (Node × Node)) : Except Error Prepared :=
  match rule with
  | .record => do
    let key ← onlyText rule.tag args
    .ok (finishIdentity ctx (.record key))
  | .peer => do
    let id ← readPeerId (← onlyText rule.tag args)
    .ok (finishIdentity ctx (.peer id))
  | .cid => do
    let value ← onlyText rule.tag args
    if isPlainName value then .ok (finishIdentity ctx (.cid value))
    else .error (.malformed (.invalidContentId value))
  | .multiaddress => do
    let addr ← readAddress (← onlyText rule.tag args)
    .ok (finishIdentity ctx (.multiaddress addr))
  | .signed => do
    let s ← readSignature rule.tag args named
    .ok (finishClaim ctx .signed s claimNames)
  | .sign keyring => do
    let k ← requireKeyring keyring
    let statement ← onlyArgument rule.tag args
    .ok (finishClaim ctx .signed (.create k statement.disassemble) claimNames)
  | .verify keyring => prepareVerify keyring ctx rule.tag args
  | .verified keyring => do
    let k ← requireKeyring keyring
    let s ← readSignature rule.tag args named
    if s.verifies k then .ok (finishClaim ctx .verified s claimNames)
    else .error (.invalidSignature s.signer)
  | .reachable probe => prepareReachable probe ctx args named
  | .custom tag rule => do
    match ← rule ctx (.predicate expiry tag args namedTag named) with
    | some n => .ok (.done n)
    | none => .ok .declined

/-- A grammar. -/
structure Grammar where
  /-- Whether literals, containers and tags are assembled at all. -/
  generic : Bool
  /-- The rules for tags; of two rules for one tag the first counts. -/
  tagRules : List TagRule
  /-- Rules for what nothing else assembles, in the order they are tried. -/
  rules : List Rule

namespace Grammar

/-- The grammar that assembles nothing. -/
def empty : Grammar := ⟨false, [], []⟩

/-- The grammar in which no tag has a meaning of its own. -/
def plain : Grammar := ⟨true, [], []⟩

/-- The grammar with a rule for a tag, in place of the one it has had. -/
def register (g : Grammar) (rule : TagRule) : Grammar :=
  { g with tagRules := rule :: g.tagRules }

/-- The grammar with one more rule to try last. -/
def addRule (g : Grammar) (rule : Rule) : Grammar := { g with rules := g.rules ++ [rule] }

/-- The grammar with the rules that need a keyring, for the keyring given. -/
def setKeyring (g : Grammar) (keyring : Option Keyring) : Grammar :=
  ((g.register (.sign keyring)).register (.verify keyring)).register (.verified keyring)

/-- The grammar with a keyring. -/
def withKeyring (g : Grammar) (keyring : Keyring) : Grammar := g.setKeyring (some keyring)

/-- The grammar with a probe. -/
def withProbe (g : Grammar) (probe : Probe) : Grammar := g.register (.reachable probe)

/-- Every tag but `reachable`, which needs a probe; signing and checking fail without a keyring. -/
def standard : Grammar :=
  (([.record, .peer, .cid, .multiaddress, .signed] : List TagRule).foldl register plain).setKeyring
    none

instance : Inhabited Grammar := ⟨standard⟩

/-- The rule for a tag. -/
def ruleFor? (g : Grammar) (tag : String) : Option TagRule :=
  g.tagRules.find? fun rule => rule.tag == tag

/-- Whether there is a rule for a tag. -/
def hasRule (g : Grammar) (tag : String) : Bool := (g.ruleFor? tag).isSome

end Grammar

end PeerRecords
