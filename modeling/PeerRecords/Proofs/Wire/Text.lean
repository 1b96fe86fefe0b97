import PeerRecords.Wire.Json
import PeerRecords.Proofs.Wire.Basic

/-
  Documents as text in bytes.
  Writing knows no limit, reading does: a document is read back, as one that is like it, exactly
  when its text has no more arrays and objects around any of its parts than the limit admits
  (`unmarshal_marshal`). A dict's text has four more than those of its keys and values
  (`nesting_dict_le_iff`).
-/

namespace PeerRecords

/-- What is written of a document is read back if the limit admits it. -/
theorem Wire.ofText?_toJson (w : Wire) : ofText? (Utf8.encode w.toJson.text) =
    if w.toJson.nesting ≤ Json.nestingLimit then some w else none := by
  rw [ofText?, Json.parse?_encode_text (isPrintable_toJson w), Option.bind_some]
  exact ofJson?_toJson w Json.nestingLimit

namespace Node

/-- How many arrays and objects the text of a document has open at once at most. -/
def nesting (n : Node) : Nat := (Wire.ofNode n).toJson.nesting

theorem unmarshal_marshal (n : Node) : unmarshal n.marshal =
    if n.nesting ≤ Json.nestingLimit then (Wire.ofNode n).toNode else .error .format := by
  rw [unmarshal, marshal, marshalText, Wire.ofText?_toJson, nesting]
  by_cases h : (Wire.ofNode n).toJson.nesting ≤ Json.nestingLimit
  · rw [if_pos h, if_pos h]
  · rw [if_neg h, if_neg h]

/-- A document that is read is sendable. -/
theorem sendable_of_unmarshal {bytes : List UInt8} {n : Node} (h : unmarshal bytes = .ok n) :
    n.Sendable := by
  unfold unmarshal at h
  split at h
  · exact Wire.sendable_of_toNode h
  · cases h

/-! ## The nesting of a document and its parts -/

theorem itemsNesting_le_iff {js : List Json} {n : Nat} :
    Json.itemsNesting js ≤ n ↔ ∀ j ∈ js, j.nesting ≤ n := by
  induction js with
  | nil => simp [Json.itemsNesting]
  | cons j js ih => simp [Json.itemsNesting, ih]

/-- How many arrays and objects the text of a plain tree has open at once at most. -/
def depth (n : Node) : Nat := (Wire.ofPlain n).toJson.nesting

theorem nesting_eq_depth (n : Node) : n.nesting = n.disassemble.depth := rfl

theorem nesting_of_isPlain {n : Node} (h : n.isPlain = true) : n.nesting = n.depth := by
  rw [nesting, Wire.ofNode, disassemble_of_isPlain h, depth]

/-- The most that the text of any of the nodes has open. -/
def elementsDepth (ns : List Node) : Nat :=
  Json.itemsNesting (Wire.elementsToJson (Wire.ofElements ns))

/-- The most that the text of any of the entries has open, each an array of key and value. -/
def entriesDepth (ps : List (Node × Node)) : Nat :=
  Json.itemsNesting (Wire.entriesToJson (Wire.ofEntries ps))

theorem elementsDepth_le_iff {ns : List Node} {m : Nat} :
    elementsDepth ns ≤ m ↔ ∀ n ∈ ns, n.depth ≤ m := by
  rw [elementsDepth, itemsNesting_le_iff, Wire.elementsToJson_eq_map, Wire.ofElements_eq_map,
    List.map_map, List.forall_mem_map]
  exact Iff.rfl

theorem entriesDepth_le_iff {ps : List (Node × Node)} {m : Nat} :
    entriesDepth ps ≤ m ↔ ∀ p ∈ ps, p.1.depth < m ∧ p.2.depth < m := by
  rw [entriesDepth, itemsNesting_le_iff, Wire.entriesToJson_eq_map, Wire.ofEntries_eq_map,
    List.map_map, List.forall_mem_map]
  refine forall₂_congr fun p hp => ?_
  simp only [Function.comp_apply, Json.nesting, Json.itemsNesting, Nat.max_zero, depth]
  omega

theorem depth_dict (e : Expiry) (t : String) (ps : List (Node × Node)) :
    (dict e t ps).depth = entriesDepth ps + 3 := by
  rw [depth, Wire.ofPlain, Wire.toJson, Wire.nesting_form, Wire.nesting_tagField, Json.nesting,
    entriesDepth]

theorem depth_set (e : Expiry) (t : String) (es : List Node) :
    (set e t es).depth = elementsDepth es + 3 := by
  rw [depth, Wire.ofPlain, Wire.toJson, Wire.nesting_form, Wire.nesting_tagField, Json.nesting,
    elementsDepth]

theorem depth_predicate (e : Expiry) (t : String) (as : List Node) (nt : String)
    (ps : List (Node × Node)) :
    (predicate e t as nt ps).depth = max (elementsDepth as) (entriesDepth ps) + 3 := by
  rw [depth, Wire.ofPlain, Wire.toJson, Wire.nesting_form, elementsDepth, entriesDepth]
  simp only [Json.ofFields, List.map_cons, List.map_nil, Json.nesting, Json.fieldsNesting,
    Json.ofString]
  omega

theorem depth_pos (n : Node) : 0 < n.depth := by
  have hform : ∀ (name : String) (body : Json), 0 < (Wire.form name body).nesting := by
    intro name body
    rw [Wire.nesting_form]
    exact Nat.succ_pos _
  unfold depth
  cases Wire.ofPlain n <;> exact hform _ _

theorem depth_ofString (text : String) : (ofString text).depth = 1 := rfl

theorem depth_ofBlob (bytes : List UInt8) : (ofBlob bytes).depth = 2 := by
  rw [depth, ofBlob, Wire.ofPlain, Wire.ofLeaf, Wire.toJson, Wire.nesting_form, Json.ofBytes,
    Json.nesting, Wire.itemsNesting_ofNat]

/-- The text of a dict has four arrays and objects around each key and each value. -/
theorem nesting_dict_le_iff {e : Expiry} {t : String} {ps : List (Node × Node)}
    (hps : (dict e t ps).isPlain = true) {n : Nat} :
    (dict e t ps).nesting ≤ n + 4 ↔ ∀ p ∈ ps, p.1.nesting ≤ n ∧ p.2.nesting ≤ n := by
  rw [nesting_of_isPlain hps, depth_dict, Nat.add_le_add_iff_right (n := 3) (m := _),
    entriesDepth_le_iff]
  refine forall₂_congr fun p hp => ?_
  have hc := forall_entryNodes.1 (isPlain_iff_children.1 hps).2 p hp
  rw [nesting_of_isPlain hc.1, nesting_of_isPlain hc.2, Nat.lt_succ_iff, Nat.lt_succ_iff]

/-- Dicts of one entry inside each other around a text. -/
def nestedDict : Nat → Node
  | 0 => ofString "x"
  | n + 1 => .dict none "" [(ofString "a", nestedDict n)]

/-! ## Documents that are alike -/

theorem itemsNesting_eq_of_perm {js ks : List Json}
    (h : (js.map Json.nesting).Perm (ks.map Json.nesting)) :
    Json.itemsNesting js = Json.itemsNesting ks := by
  have hfold : ∀ js : List Json, Json.itemsNesting js = (js.map Json.nesting).foldr max 0 := by
    intro js
    induction js with
    | nil => rfl
    | cons j js ih => rw [Json.itemsNesting, ih, List.map_cons, List.foldr_cons]
  rw [hfold, hfold]
  exact h.foldr_eq 0

theorem nesting_eq_of_leaf_alike {v w : Leaf} (h : v.alike w = true) :
    (Wire.ofLeaf v).toJson.nesting = (Wire.ofLeaf w).toJson.nesting := by
  cases v with
  | float d =>
    cases w with
    | float d' => rw [Wire.ofLeaf, Wire.ofLeaf, Wire.toJson, Wire.toJson]; rfl
    | _ => simp [Leaf.alike] at h
  | _ =>
    obtain rfl := of_decide_eq_true h
    rfl

/-- The texts of trees that are alike have as many arrays and objects open. -/
theorem nesting_eq_of_alike {a b : Node} (h : Alike a b) :
    (Wire.ofPlain a).toJson.nesting = (Wire.ofPlain b).toJson.nesting := by
  have hentries : ∀ {ps qs : List (Node × Node)}, PairedOff AlikeEntry ps qs →
      (∀ p ∈ ps, (∀ {b}, Alike p.1 b →
        (Wire.ofPlain p.1).toJson.nesting = (Wire.ofPlain b).toJson.nesting) ∧
        ∀ {b}, Alike p.2 b →
          (Wire.ofPlain p.2).toJson.nesting = (Wire.ofPlain b).toJson.nesting) →
      Json.itemsNesting (Wire.entriesToJson (Wire.ofEntries ps)) =
        Json.itemsNesting (Wire.entriesToJson (Wire.ofEntries qs)) := by
    intro ps qs h ih
    refine itemsNesting_eq_of_perm ?_
    simp only [Wire.entriesToJson_eq_map, Wire.ofEntries_eq_map, List.map_map]
    refine h.perm_map fun p hp q hpq => ?_
    simp only [Function.comp_apply, Json.nesting, Json.itemsNesting, (ih p hp).1 hpq.1,
      (ih p hp).2 hpq.2]
  have helements : ∀ {es fs : List Node}, PairedOff Alike es fs →
      (∀ e ∈ es, ∀ {b}, Alike e b →
        (Wire.ofPlain e).toJson.nesting = (Wire.ofPlain b).toJson.nesting) →
      Json.itemsNesting (Wire.elementsToJson (Wire.ofElements es)) =
        Json.itemsNesting (Wire.elementsToJson (Wire.ofElements fs)) := by
    intro es fs h ih
    refine itemsNesting_eq_of_perm ?_
    simp only [Wire.elementsToJson_eq_map, Wire.ofElements_eq_map, List.map_map]
    exact h.perm_map fun e he f hef => ih e he hef
  induction a using Node.induct generalizing b with
  | leaf e v =>
    cases b with
    | leaf e' w =>
      rw [Wire.ofPlain, Wire.ofPlain]
      exact nesting_eq_of_leaf_alike (alike_leaf.1 h)
    | _ => exact h.elim
  | dict e t ps ih =>
    cases b with
    | dict e' u qs =>
      obtain ⟨rfl, hps⟩ := alike_dict.1 h
      simp only [Wire.ofPlain, Wire.toJson, Wire.nesting_form, Wire.nesting_tagField, Json.nesting,
        hentries hps ih]
    | _ => exact h.elim
  | set e t es ih =>
    cases b with
    | set e' u fs =>
      obtain ⟨rfl, hes⟩ := alike_set.1 h
      simp only [Wire.ofPlain, Wire.toJson, Wire.nesting_form, Wire.nesting_tagField, Json.nesting,
        helements hes ih]
    | _ => exact h.elim
  | predicate e t as nt ps iha ihp =>
    cases b with
    | predicate e' u bs nu qs =>
      obtain ⟨rfl, has, rfl, hps⟩ := alike_predicate.1 h
      simp only [Wire.ofPlain, Wire.toJson, Wire.nesting_form, Json.ofFields, List.map_cons,
        List.map_nil, Json.nesting, Json.fieldsNesting, hentries hps ihp,
        helements ⟨bs, has, .refl _⟩ iha]
    | _ => exact h.elim
  | identity e i us ih => exact h.elim
  | claim e a b s g us ihs ihu => exact h.elim
  | verify e s us ihs ihu => exact h.elim
  | reachable e m vt vs ut uvs us ihv ihn ihu => exact h.elim

end Node

end PeerRecords
