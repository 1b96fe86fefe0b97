import PeerRecords.Node.Basic

/-
  The plain form of a document and structural equality.
  `disassemble` turns every smart node into the predicate it stands for: its own arguments first,
  the user's fields laid over them. `eqv` is equality of plain forms: expirations do not count,
  entries and elements may come in any order, decimal numbers are compared as numbers.
  An entry is looked up by the first equal key. On documents whose keys and elements are pairwise
  unequal the order of lookup does not matter; on others `eqv a b` asks for each entry or element
  of `a` whether `b` has it, so the side that asks is part of the definition.
-/

namespace PeerRecords

/-! ## Lists of entries -/

namespace Entries

/-- The value of the first key that passes the test. -/
def lookup? (test : Node → Bool) (ps : List (Node × Node)) : Option Node :=
  (ps.find? fun p => test p.1).map (·.2)

/-- Gives the first key that passes the test the value `v`; without one, adds the key `k` at the
end. The stored key stays as it is. -/
def put (test : Node → Bool) (k v : Node) : List (Node × Node) → List (Node × Node)
  | [] => [(k, v)]
  | p :: ps => if test p.1 then (p.1, v) :: ps else p :: put test k v ps

/-- Takes out the first entry whose key passes the test. -/
def takeOut (test : Node → Bool) (ps : List (Node × Node)) : List (Node × Node) :=
  ps.eraseP fun p => test p.1

end Entries

namespace Node

/-! ## Equality of plain trees -/

mutual

/-- Equality of plain trees. `same false a b` is asked by `a` of `b`, `same true a b` by `b` of
`a`: the side that asks goes through its entries, and looks each key up on the other side. -/
def same (flip : Bool) : Node → Node → Bool
  | .leaf _ a, .leaf _ b => a.alike b
  | .dict _ t ps, .dict _ u qs =>
    t == u && ps.length == qs.length &&
      (if flip then qs.all fun q => answers ps q else covered ps qs)
  | .set _ t es, .set _ u fs =>
    t == u && es.length == fs.length &&
      (if flip then fs.all fun f => holds es f else contained es fs)
  | .predicate _ t as nt ps, .predicate _ u bs nu qs =>
    t == u && pointwise flip as bs && nt == nu && ps.length == qs.length &&
      (if flip then qs.all fun q => answers ps q else covered ps qs)
  | _, _ => false
termination_by structural n => n

/-- Every entry has an equal value at the first equal key of the other list. -/
def covered : List (Node × Node) → List (Node × Node) → Bool
  | [], _ => true
  | (k, v) :: ps, qs =>
    (match qs.find? fun q => same true k q.1 with
      | some q => same true v q.2
      | none => false) && covered ps qs
termination_by structural ps => ps

/-- The first key equal to the asked one has an equal value. -/
def answers : List (Node × Node) → Node × Node → Bool
  | [], _ => false
  | (k, v) :: ps, q => if same false k q.1 then same false v q.2 else answers ps q
termination_by structural ps => ps

/-- Every element is equal to one of the other list. -/
def contained : List Node → List Node → Bool
  | [], _ => true
  | e :: es, fs => fs.any (fun f => same true e f) && contained es fs
termination_by structural es => es

/-- Some element is equal to the asked one. -/
def holds : List Node → Node → Bool
  | [], _ => false
  | e :: es, f => same false e f || holds es f
termination_by structural es => es

/-- Arguments are equal one by one. -/
def pointwise (flip : Bool) : List Node → List Node → Bool
  | [], [] => true
  | a :: as, b :: bs => same flip a b && pointwise flip as bs
  | _, _ => false
termination_by structural as => as

end

/-! ## Plain forms -/

/-- Lays the user's fields over the arguments of a smart node. -/
def layOver (own user : List (Node × Node)) : List (Node × Node) :=
  user.foldl (fun acc p => Entries.put (fun k => same false k p.1) p.1 p.2 acc) own

/-- The named arguments of a claim. -/
def claimFields (signer : PeerId) (signature : List UInt8) : List (Node × Node) :=
  [(ofString "by", ofString signer.name), (ofString "signature", ofBlob signature)]

/-- The named arguments of a reachability result; the unverified candidates only if there are
any. -/
def reachableFields (mode : ProbeMode) (unverifiedTag : String) (unverified : List Node) :
    List (Node × Node) :=
  (ofString "check", ofString mode.name) ::
    if unverified.isEmpty then []
    else [(ofString "unverified", .set none unverifiedTag unverified)]

mutual

/-- The plain form: every smart node becomes its predicate, every expiration stays. -/
def disassemble : Node → Node
  | .leaf e v => .leaf e v
  | .dict e t ps => .dict e t (disassembleEntries ps)
  | .set e t es => .set e t (disassembleAll es)
  | .predicate e t as nt ps =>
    .predicate e t (disassembleAll as) nt (disassembleEntries ps)
  | .identity e i us =>
    .predicate e i.kind.name [ofString i.text] "" (layOver [] (disassembleEntries us))
  | .claim e a b s g us =>
    .predicate e a.kind.name [disassemble s] "" (layOver (claimFields b g) (disassembleEntries us))
  | .verify e s us =>
    .predicate e Kind.verify.name [disassemble s] "" (layOver [] (disassembleEntries us))
  | .reachable e m _ vs ut uvs us =>
    .predicate e Kind.reachable.name (disassembleAll vs) ""
      (layOver (reachableFields m ut (disassembleAll uvs)) (disassembleEntries us))
termination_by structural n => n

/-- The plain forms of a list of nodes. -/
def disassembleAll : List Node → List Node
  | [] => []
  | n :: ns => disassemble n :: disassembleAll ns
termination_by structural ns => ns

/-- The plain forms of the keys and values of a list of entries. -/
def disassembleEntries : List (Node × Node) → List (Node × Node)
  | [] => []
  | (k, v) :: ps => (disassemble k, disassemble v) :: disassembleEntries ps
termination_by structural ps => ps

end

/-! ## Structural equality -/

/-- Structural equality: equality of the plain forms, asked by the first node. -/
def eqv (a b : Node) : Bool := same false a.disassemble b.disassemble

/-- Whether a list of elements holds one equal to `n`; each element is asked. -/
def isIn (n : Node) (ns : List Node) : Bool := ns.any fun m => m.eqv n

theorem disassembleAll_eq_map (ns : List Node) : disassembleAll ns = ns.map disassemble := by
  induction ns with
  | nil => rfl
  | cons n ns ih => rw [disassembleAll, ih, List.map_cons]

theorem disassembleEntries_eq_map (ps : List (Node × Node)) :
    disassembleEntries ps = ps.map fun p => (p.1.disassemble, p.2.disassemble) := by
  induction ps with
  | nil => rfl
  | cons p ps ih => obtain ⟨k, v⟩ := p; rw [disassembleEntries, ih, List.map_cons]

@[simp] theorem expiry_disassemble (n : Node) : n.disassemble.expiry = n.expiry := by
  cases n <;> rfl

end Node

end PeerRecords
