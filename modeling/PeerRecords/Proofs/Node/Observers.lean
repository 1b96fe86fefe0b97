import PeerRecords.Node.Pretty
import PeerRecords.Proofs.Node.Canonical
import PeerRecords.Proofs.Node.Equivalence
import PeerRecords.Wire.Json

/-
  What is seen of a document is seen of its plain form.
  The canonical bytes and the text are defined on the plain form of the whole document. One pass
  gives the same: it writes a smart node as its plain form where it meets one, and any other node by
  what it consists of. `bytesWith` and `textWith` are one step of such a pass, and the bytes and the
  text are the only ones that follow it at every node (`follows_bytesWith_iff`,
  `follows_textWith_iff`), as equality is the only comparison that follows its own step. So
  whichever way they go, equality, bytes, text and marshalling do not tell a document from its plain
  form (`plain_form_seen_alike`).
-/

namespace PeerRecords.Node

/-! ## Passes over a document -/

/-- A step of a pass that goes on with the plain form of a smart node, and of any other node takes
no more than what the pass makes of its children. -/
structure Descends {β : Type} (step : (Node → β) → Node → β) : Prop where
  smart : ∀ f n, n.isSmart = true → step f n = f n.disassemble
  parts : ∀ f g n, n.isSmart = false → (∀ c ∈ n.children, f c = g c) → step f n = step g n

/-- One pass at most follows a step that descends. -/
theorem Descends.unique {β : Type} {step : (Node → β) → Node → β} (hstep : Descends step)
    {f g : Node → β} (hf : ∀ n, f n = step f n) (hg : ∀ n, g n = step g n) : f = g := by
  have hplain : ∀ n : Node, n.isPlain = true → f n = g n := by
    intro n h
    induction n using induct_children with
    | step n ih =>
      obtain ⟨hn, hc⟩ := isPlain_iff_children.1 h
      rw [hf, hg, hstep.parts f g n hn fun c hcn => ih c hcn (hc c hcn)]
  funext n
  induction n using induct_children with
  | step n ih =>
    cases hn : n.isSmart with
    | true =>
      rw [hf, hg, hstep.smart f n hn, hstep.smart g n hn, hplain _ (isPlain_disassemble n)]
    | false => rw [hf, hg, hstep.parts f g n hn ih]

theorem Descends.follows_iff {β : Type} {step : (Node → β) → Node → β} (hstep : Descends step)
    {g : Node → β} (hg : ∀ n, g n = step g n) (f : Node → β) :
    (∀ n, f n = step f n) ↔ f = g := by
  constructor
  · intro hf
    exact hstep.unique hf hg
  · rintro rfl
    exact hg

/-! ## Bytes -/

section

variable (write : Node → List UInt8)

/-- The bytes of an entry: the key, then the value. -/
def entryWith (p : Node × Node) : List UInt8 := write p.1 ++ write p.2

/-- One step of writing canonical bytes. -/
def bytesWith : Node → List UInt8
  | .leaf _ v => leafBytes v
  | .dict _ t ps => 6 :: lengthPrefixed (Utf8.bytes t) ++ writeSorted (ps.map (entryWith write))
  | .set _ t es => 7 :: lengthPrefixed (Utf8.bytes t) ++ writeSorted (es.map write)
  | .predicate _ t as _ ps =>
    8 :: lengthPrefixed (Utf8.bytes t) ++ Bytes.length as.length ++ (as.map write).flatten
      ++ writeSorted (ps.map (entryWith write))
  | n => write n.disassemble

end

theorem descends_bytesWith : Descends bytesWith where
  smart f n hn := by
    cases n <;> first | rfl | cases hn
  parts f g n hn h := by
    have hentries : ∀ {ps : List (Node × Node)}, (∀ c ∈ entryNodes ps, f c = g c) →
        ps.map (entryWith f) = ps.map (entryWith g) := fun h =>
      List.map_congr_left fun p hp => by
        rw [entryWith, entryWith, h _ (fst_mem_entryNodes hp), h _ (snd_mem_entryNodes hp)]
    cases n with
    | leaf e v => rfl
    | dict e t ps => rw [bytesWith, bytesWith, hentries h]
    | set e t es =>
      have helements : es.map f = es.map g := List.map_congr_left h
      rw [bytesWith, bytesWith, helements]
    | predicate e t as nt ps =>
      obtain ⟨hargs, hnamed⟩ := List.forall_mem_append.1 h
      rw [bytesWith, bytesWith, hentries hnamed, List.map_congr_left hargs]
    | _ => cases hn

theorem elementBytes_disassembleAll (ns : List Node) :
    elementBytes (disassembleAll ns) = ns.map canonical := by
  rw [elementBytes_eq_map, disassembleAll_eq_map, List.map_map]
  rfl

theorem entryBytes_disassembleEntries (ps : List (Node × Node)) :
    entryBytes (disassembleEntries ps) = ps.map (entryWith canonical) := by
  rw [entryBytes_eq_map, disassembleEntries_eq_map, List.map_map]
  rfl

theorem canonical_disassemble (n : Node) : n.disassemble.canonical = n.canonical := by
  rw [canonical, disassemble_disassemble, canonical]

/-- The canonical bytes follow the step. -/
theorem canonical_eq_bytesWith (n : Node) : n.canonical = bytesWith canonical n := by
  cases n with
  | leaf e v => rfl
  | dict e t ps =>
    rw [canonical, disassemble, plainBytes, entryBytes_disassembleEntries, bytesWith]
  | set e t es =>
    rw [canonical, disassemble, plainBytes, elementBytes_disassembleAll, bytesWith]
  | predicate e t as nt ps =>
    rw [canonical, disassemble, plainBytes, elementBytes_disassembleAll,
      entryBytes_disassembleEntries, disassembleAll_eq_map, List.length_map, bytesWith]
  | _ => exact (canonical_disassemble _).symm

/-- The canonical bytes are the only ones that follow the step. -/
theorem follows_bytesWith_iff (write : Node → List UInt8) :
    (∀ n, write n = bytesWith write n) ↔ write = canonical :=
  descends_bytesWith.follows_iff canonical_eq_bytesWith write

/-! ## Text -/

section

variable (write : Node → Nat → List Char) (depth : Nat)

/-- The line of an element. -/
def elementLineWith (n : Node) : List Char := indent depth ++ write n depth ++ [',', '\n']

/-- The line of an entry. -/
def entryLineWith (p : Node × Node) : List Char :=
  indent depth ++ write p.1 depth ++ [':', ' '] ++ write p.2 depth ++ [',', '\n']

/-- One step of writing the text of a node at a depth. -/
def textWith : Node → Nat → List Char
  | .leaf _ v, _ => leafText v
  | .dict _ t ps, depth =>
    bracketed depth t '\x7b' '\x7d' ps.isEmpty (ps.flatMap (entryLineWith write (depth + 1)))
  | .set _ t es, depth =>
    bracketed depth t '[' ']' es.isEmpty (es.flatMap (elementLineWith write (depth + 1)))
  | .predicate _ t as _ ps, depth =>
    bracketed depth t '(' ')' (as.isEmpty && ps.isEmpty)
      (as.flatMap (elementLineWith write (depth + 1)) ++
        ps.flatMap (entryLineWith write (depth + 1)))
  | n, depth => write n.disassemble depth

end

/-- The text of a node at a depth. -/
def textAt (n : Node) (depth : Nat) : List Char := plainText depth n.disassemble

theorem descends_textWith : Descends textWith where
  smart f n hn := by
    cases n <;> first | rfl | cases hn
  parts f g n hn h := by
    have hentries : ∀ {ps : List (Node × Node)} (depth : Nat), (∀ c ∈ entryNodes ps, f c = g c) →
        ps.flatMap (entryLineWith f depth) = ps.flatMap (entryLineWith g depth) :=
      fun depth h => congrArg List.flatten <| List.map_congr_left fun p hp => by
        rw [entryLineWith, entryLineWith, h _ (fst_mem_entryNodes hp), h _ (snd_mem_entryNodes hp)]
    have helements : ∀ (ns : List Node) (depth : Nat), (∀ c ∈ ns, f c = g c) →
        ns.flatMap (elementLineWith f depth) = ns.flatMap (elementLineWith g depth) :=
      fun _ depth h => congrArg List.flatten <| List.map_congr_left fun c hc => by
        rw [elementLineWith, elementLineWith, h c hc]
    funext depth
    cases n with
    | leaf e v => rfl
    | dict e t ps => rw [textWith, textWith, hentries _ h]
    | set e t es => rw [textWith, textWith, helements es _ h]
    | predicate e t as nt ps =>
      obtain ⟨hargs, hnamed⟩ := List.forall_mem_append.1 h
      rw [textWith, textWith, hentries _ hnamed, helements as _ hargs]
    | _ => cases hn

theorem elementLines_disassembleAll (depth : Nat) (ns : List Node) :
    elementLines depth (disassembleAll ns) = ns.flatMap (elementLineWith textAt depth) := by
  induction ns with
  | nil => rfl
  | cons n ns ih =>
    rw [disassembleAll, elementLines, ih, List.flatMap_cons, elementLineWith, textAt]

theorem entryLines_disassembleEntries (depth : Nat) (ps : List (Node × Node)) :
    entryLines depth (disassembleEntries ps) = ps.flatMap (entryLineWith textAt depth) := by
  induction ps with
  | nil => rfl
  | cons p ps ih =>
    obtain ⟨k, v⟩ := p
    rw [disassembleEntries, entryLines, ih, List.flatMap_cons, entryLineWith, textAt, textAt]

theorem textAt_disassemble (n : Node) : n.disassemble.textAt = n.textAt := by
  funext depth
  rw [textAt, disassemble_disassemble, textAt]

/-- The text follows the step. -/
theorem textAt_eq_textWith (n : Node) : n.textAt = textWith textAt n := by
  have hnodes : ∀ ns : List Node, (disassembleAll ns).isEmpty = ns.isEmpty := by
    intro ns
    cases ns <;> rfl
  have hentries : ∀ ps : List (Node × Node), (disassembleEntries ps).isEmpty = ps.isEmpty := by
    intro ps
    cases ps <;> rfl
  funext depth
  cases n with
  | leaf e v => rfl
  | dict e t ps =>
    rw [textAt, disassemble, plainText, hentries, entryLines_disassembleEntries, textWith]
  | set e t es =>
    rw [textAt, disassemble, plainText, hnodes, elementLines_disassembleAll, textWith]
  | predicate e t as nt ps =>
    rw [textAt, disassemble, plainText, hnodes, hentries, elementLines_disassembleAll,
      entryLines_disassembleEntries, textWith]
  | _ => exact (congrFun (textAt_disassemble _) depth).symm

/-- The text is the only one that follows the step. -/
theorem follows_textWith_iff (write : Node → Nat → List Char) :
    (∀ n, write n = textWith write n) ↔ write = textAt :=
  descends_textWith.follows_iff textAt_eq_textWith write

/-! ## The plain form -/

theorem pretty_disassemble (n : Node) : n.disassemble.pretty = n.pretty :=
  congrArg (fun text : Nat → List Char => String.ofList (text 0)) (textAt_disassemble n)

theorem marshal_disassemble (n : Node) : n.disassemble.marshal = n.marshal := by
  have hwire : Wire.ofNode n.disassemble = Wire.ofNode n := by
    rw [Wire.ofNode, disassemble_disassemble, Wire.ofNode]
  rw [marshal, marshalText, hwire, marshal, marshalText]

/-- The plain form is plain, is its own plain form and keeps keys and elements pairwise unequal. The
comparison that unfolds smart nodes one side at a time finds it equal to the document from either
side, and the passes that write bytes and text in place write the same of both, as does marshalling,
which takes the plain form first. -/
theorem plain_form_seen_alike {n : Node} (h : n.WellFormed) :
    n.disassemble.isPlain = true ∧ n.disassemble.disassemble = n.disassemble ∧
    n.disassemble.WellFormed ∧
    (∀ eq : Node → Node → Bool, (∀ a b, eq a b = compareWith eq a b) ↔ eq = eqv) ∧
    n.eqv n.disassemble = true ∧ n.disassemble.eqv n = true ∧
    (∀ write, (∀ m, write m = bytesWith write m) ↔ write = canonical) ∧
    n.disassemble.canonical = n.canonical ∧
    (∀ write, (∀ m, write m = textWith write m) ↔ write = textAt) ∧
    n.disassemble.textAt = n.textAt ∧ n.disassemble.pretty = n.pretty ∧
    n.disassemble.marshal = n.marshal := by
  have hself : n.eqv n = true := eqv_refl h.distinctKeys
  refine ⟨isPlain_disassemble n, disassemble_disassemble n, h.disassemble, follows_iff, ?_, ?_,
    follows_bytesWith_iff, canonical_disassemble n, follows_textWith_iff, textAt_disassemble n,
    pretty_disassemble n, marshal_disassemble n⟩
  · rw [eqv_disassemble_right, hself]
  · rw [eqv_disassemble_left, hself]

/-- A note that quotes a signed record with a field of the user, and where its peer was seen. -/
def quotation : Node :=
  let writer := identity none (.peer ⟨"ada"⟩) [(ofString "seen", identity none (.cid "c") [])]
  dict none "note" [
    (ofString "quote", claim none .signed ⟨"ada"⟩ (identity none (.record "k") []) [1]
      [(ofString "by", set none "" [writer, ofString "ada"])]),
    (writer, reachable none .dial "" [writer] "" [identity none (.cid "c") []] [])]

theorem plain_form_seen_alike_quotation :
    quotation.disassemble.isPlain = true ∧
    quotation.disassemble.disassemble = quotation.disassemble ∧
    quotation.disassemble.WellFormed ∧
    (∀ eq : Node → Node → Bool, (∀ a b, eq a b = compareWith eq a b) ↔ eq = eqv) ∧
    quotation.eqv quotation.disassemble = true ∧ quotation.disassemble.eqv quotation = true ∧
    (∀ write, (∀ m, write m = bytesWith write m) ↔ write = canonical) ∧
    quotation.disassemble.canonical = quotation.canonical ∧
    (∀ write, (∀ m, write m = textWith write m) ↔ write = textAt) ∧
    quotation.disassemble.textAt = quotation.textAt ∧
    quotation.disassemble.pretty = quotation.pretty ∧
    quotation.disassemble.marshal = quotation.marshal :=
  plain_form_seen_alike (by decide)

end PeerRecords.Node
