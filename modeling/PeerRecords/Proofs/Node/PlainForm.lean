import PeerRecords.Node.Dict
import PeerRecords.Proofs.Node.Equality
import Mathlib.Data.List.Induction

/-
  Plain forms.
  What stands in a plain form is listed by `PlainPart`, and `Everywhere.disassemble` carries a
  property of single nodes over to all of it. So the plain form of a document is plain
  (`isPlain_disassemble`), is its own plain form (`disassemble_disassemble`) and repeats no key and
  no element if the document repeats none (`WellFormed.disassemble`). A document that repeats no key
  is equal to itself (`eqv_refl`); on well-formed documents structural equality is likeness of their
  plain forms (`eqv_iff_alike`), and an equivalence. `lookup?_layOver` says which value a text names
  after the user's fields are laid over the arguments of a smart node: the last of the user's.
-/

namespace PeerRecords

/-! ## Entries put into a list -/

namespace Entries

variable {test : Node → Bool} {k v : Node} {ps : List (Node × Node)}

theorem mem_entryNodes_put {c : Node} (h : c ∈ Node.entryNodes (put test k v ps)) :
    c = k ∨ c = v ∨ c ∈ Node.entryNodes ps := by
  induction ps with
  | nil =>
    obtain ⟨p, hp, hc⟩ := Node.mem_entryNodes.1 h
    obtain rfl : p = (k, v) := List.mem_singleton.1 hp
    exact hc.imp id .inl
  | cons p ps ih =>
    have hentry : ∀ {qs}, Node.entryNodes (p :: qs) = p.1 :: p.2 :: Node.entryNodes qs := rfl
    unfold put at h
    split at h
    · rw [hentry]
      rcases List.mem_cons.1 h with rfl | h
      · exact .inr (.inr List.mem_cons_self)
      · rcases List.mem_cons.1 h with rfl | h
        · exact .inr (.inl rfl)
        · exact .inr (.inr (List.mem_cons_of_mem _ (List.mem_cons_of_mem _ h)))
    · rw [hentry] at h ⊢
      rcases List.mem_cons.1 h with rfl | h
      · exact .inr (.inr List.mem_cons_self)
      · rcases List.mem_cons.1 h with rfl | h
        · exact .inr (.inr (List.mem_cons_of_mem _ List.mem_cons_self))
        · exact (ih h).imp id (.imp id fun h => List.mem_cons_of_mem _ (List.mem_cons_of_mem _ h))

/-- The keys after a put: those of before, and the new one if none passes the test. -/
theorem map_fst_put : (put test k v ps).map (·.1) =
    if ps.any (fun p => test p.1) then ps.map (·.1) else ps.map (·.1) ++ [k] := by
  induction ps with
  | nil => rfl
  | cons p ps ih =>
    unfold put
    rw [List.any_cons]
    by_cases h : test p.1 = true
    · simp [h]
    · rw [if_neg h, List.map_cons, ih, Bool.eq_false_of_not_eq_true h, Bool.false_or]
      split <;> simp

theorem pairwise_put {R : Node → Node → Prop} (h : (ps.map (·.1)).Pairwise R)
    (hR : ∀ p ∈ ps, test p.1 = false → R p.1 k) : ((put test k v ps).map (·.1)).Pairwise R := by
  rw [map_fst_put]
  split
  · exact h
  · rename_i hany
    rw [List.pairwise_append]
    refine ⟨h, List.pairwise_singleton _ _, fun a ha b hb => ?_⟩
    obtain rfl := List.mem_singleton.1 hb
    obtain ⟨p, hp, rfl⟩ := List.mem_map.1 ha
    apply hR p hp
    by_contra htest
    exact hany (List.any_eq_true.2 ⟨p, hp, by simpa using htest⟩)

/-- A new key goes to the end. -/
theorem put_of_forall_not (h : ∀ p ∈ ps, test p.1 = false) : put test k v ps = ps ++ [(k, v)] := by
  induction ps with
  | nil => rfl
  | cons p ps ih =>
    have hp := h p List.mem_cons_self
    rw [put, hp, ih fun q hq => h q (List.mem_cons_of_mem _ hq)]
    rfl

end Entries

namespace Node

/-! ## Laying fields over arguments -/

theorem layOver_append_singleton (own us : List (Node × Node)) (p : Node × Node) :
    layOver own (us ++ [p]) =
      Entries.put (fun k => same false k p.1) p.1 p.2 (layOver own us) := by
  simp only [layOver, List.foldl_append, List.foldl_cons, List.foldl_nil]

theorem mem_entryNodes_layOver {own us : List (Node × Node)} {c : Node}
    (h : c ∈ entryNodes (layOver own us)) : c ∈ entryNodes own ∨ c ∈ entryNodes us := by
  induction us using List.reverseRecOn with
  | nil => exact .inl h
  | append_singleton us p ih =>
    rw [layOver_append_singleton] at h
    have hmem : ∀ {x}, x ∈ entryNodes us ∨ x = p.1 ∨ x = p.2 → x ∈ entryNodes (us ++ [p]) := by
      intro x hx
      simpa [entryNodes] using hx
    rcases Entries.mem_entryNodes_put h with rfl | rfl | h
    · exact .inr (hmem (.inr (.inl rfl)))
    · exact .inr (hmem (.inr (.inr rfl)))
    · exact (ih h).imp id fun h => hmem (.inl h)

/-- Fields are laid over without a repeated key, if there was none. -/
theorem pairwise_layOver {own us : List (Node × Node)}
    (h : (own.map (·.1)).Pairwise fun k l => same false k l = false) :
    ((layOver own us).map (·.1)).Pairwise fun k l => same false k l = false := by
  induction us using List.reverseRecOn with
  | nil => exact h
  | append_singleton us p ih =>
    rw [layOver_append_singleton]
    exact Entries.pairwise_put ih fun q _ hq => hq

/-- Fields without repeats that name none of the arguments are laid behind them. -/
theorem layOver_eq_append {own us : List (Node × Node)}
    (hown : ∀ p ∈ own, ∀ u ∈ us, same false p.1 u.1 = false)
    (hus : (us.map (·.1)).Pairwise fun k l => same false k l = false) :
    layOver own us = own ++ us := by
  induction us using List.reverseRecOn with
  | nil => exact (List.append_nil own).symm
  | append_singleton us u ih =>
    rw [List.map_append, List.pairwise_append] at hus
    obtain ⟨hus, _, hu⟩ := hus
    rw [layOver_append_singleton, ih (fun p hp w hw => hown p hp w (List.mem_append_left _ hw)) hus,
      Entries.put_of_forall_not, List.append_assoc]
    intro p hp
    rcases List.mem_append.1 hp with hp | hp
    · exact hown p hp u (List.mem_append_right _ (List.mem_singleton_self u))
    · exact hu p.1 (List.mem_map_of_mem hp) u.1 List.mem_cons_self

theorem string?_eq_some {n : Node} {s : String} :
    n.string? = some s ↔ ∃ e, n = .leaf e (.string s) := by
  constructor
  · intro h
    unfold string? at h
    split at h
    · cases h
      exact ⟨_, rfl⟩
    · cases h
  · rintro ⟨e, rfl⟩
    rfl

theorem string?_withExpiry (e : Expiry) (n : Node) : (n.withExpiry e).string? = n.string? := by
  cases n with
  | leaf e' v => cases v <;> rfl
  | _ => rfl

theorem string?_disassemble (n : Node) : n.disassemble.string? = n.string? := by
  cases n <;> rfl

/-- A node is equal to a text as plain trees just if it is the same text. -/
theorem same_text_iff {a k : Node} {s : String} (hk : k.string? = some s) :
    same false a k = true ↔ a.string? = some s := by
  obtain ⟨e, rfl⟩ := string?_eq_some.1 hk
  cases a with
  | leaf d v => cases v <;> simp [same, Leaf.alike, string?]
  | _ => simp [same, string?]

theorem string?_of_same {a k : Node} (h : same false a k = true) : a.string? = k.string? := by
  cases hk : k.string? with
  | some s => exact (same_text_iff hk).1 h
  | none =>
    cases a with
    | leaf d v =>
      cases k with
      | leaf e w => cases v <;> cases w <;> simp_all [same, Leaf.alike, string?]
      | _ => simp [same] at h
    | _ => rfl

/-- Equal nodes are the same text, if one of them is a text. -/
theorem string?_of_eqv {a b : Node} (h : a.eqv b = true) : a.string? = b.string? := by
  rw [← string?_disassemble a, ← string?_disassemble b]
  exact string?_of_same h

theorem lookup?_put_text {k v : Node} {ps : List (Node × Node)} (s : String) :
    Entries.lookup? (Dict.isText s) (Entries.put (fun a => same false a k) k v ps) =
      if k.string? = some s then some v else Entries.lookup? (Dict.isText s) ps := by
  induction ps with
  | nil =>
    by_cases h : k.string? = some s <;> simp [Entries.put, Entries.lookup?, Dict.isText, h]
  | cons p ps ih =>
    unfold Entries.put
    by_cases hp : same false p.1 k = true
    · have hs := string?_of_same hp
      rw [if_pos hp]
      by_cases h : k.string? = some s <;> simp [Entries.lookup?, Dict.isText, h, hs]
    · rw [if_neg hp]
      have hs : k.string? = some s → p.1.string? ≠ some s := fun h hps =>
        hp ((same_text_iff h).2 hps)
      simp only [Entries.lookup?, Dict.isText, List.find?_cons] at ih ⊢
      by_cases h : p.1.string? = some s
      · have hk : k.string? ≠ some s := fun hk => hs hk h
        simp [h, hk]
      · rw [beq_eq_false_iff_ne.2 h]
        exact ih

/-- What a text names after fields are laid over: the last of them with that text, or what it
named before. -/
theorem lookup?_layOver (own us : List (Node × Node)) (s : String) :
    Entries.lookup? (Dict.isText s) (layOver own us) =
      (Entries.lookup? (Dict.isText s) us.reverse).or (Entries.lookup? (Dict.isText s) own) := by
  induction us using List.reverseRecOn with
  | nil => rfl
  | append_singleton us p ih =>
    rw [layOver_append_singleton, lookup?_put_text, ih, List.reverse_concat]
    by_cases h : p.1.string? = some s <;> simp [Entries.lookup?, Dict.isText, h]

/-! ## The children of a plain form -/

/-- What stands directly in the plain form of a node: the plain form of a child, a leaf that the
smart node adds, or the set of its unverified candidates. -/
inductive PlainPart : Node → Node → Prop
  | child {n c : Node} (h : c ∈ n.children) : PlainPart n c.disassemble
  | leaf (n : Node) (v : Leaf) : PlainPart n (.leaf none v)
  | unverified (e : Expiry) (m : ProbeMode) (vt : String) (vs : List Node) (ut : String)
      (uvs : List Node) (us : List (Node × Node)) :
      PlainPart (.reachable e m vt vs ut uvs us) (.set none ut (disassembleAll uvs))

theorem entryNodes_disassembleEntries (ps : List (Node × Node)) :
    entryNodes (disassembleEntries ps) = (entryNodes ps).map disassemble := by
  rw [disassembleEntries_eq_map, entryNodes, List.flatMap_map, entryNodes, List.map_flatMap]
  rfl

theorem PlainPart.of_all {n : Node} {ns : List Node} (h : ∀ d ∈ ns, d ∈ n.children) :
    ∀ c ∈ disassembleAll ns, PlainPart n c := by
  rw [disassembleAll_eq_map]
  exact List.forall_mem_map.2 fun d hd => .child (h d hd)

theorem PlainPart.of_entries {n : Node} {ps : List (Node × Node)}
    (h : ∀ d ∈ entryNodes ps, d ∈ n.children) :
    ∀ c ∈ entryNodes (disassembleEntries ps), PlainPart n c := by
  rw [entryNodes_disassembleEntries]
  exact List.forall_mem_map.2 fun d hd => .child (h d hd)

theorem PlainPart.of_layOver {n : Node} {own us : List (Node × Node)}
    (hown : ∀ c ∈ entryNodes own, PlainPart n c) (hus : ∀ d ∈ entryNodes us, d ∈ n.children) :
    ∀ c ∈ entryNodes (layOver own (disassembleEntries us)), PlainPart n c :=
  fun c hc => (mem_entryNodes_layOver hc).elim (hown c) (of_entries hus c)

theorem PlainPart.of_claimFields (n : Node) (signer : PeerId) (signature : List UInt8) :
    ∀ c ∈ entryNodes (claimFields signer signature), PlainPart n c := by
  simp only [claimFields, forall_entryNodes, List.forall_mem_cons]
  exact ⟨⟨.leaf n _, .leaf n _⟩, ⟨.leaf n _, .leaf n _⟩, fun p hp => absurd hp List.not_mem_nil⟩

theorem PlainPart.of_reachableFields {n : Node} {mode : ProbeMode} {ut : String} {uvs : List Node}
    (h : PlainPart n (.set none ut uvs)) :
    ∀ c ∈ entryNodes (reachableFields mode ut uvs), PlainPart n c := by
  refine forall_entryNodes.2 fun p hp => ?_
  obtain rfl | hp := List.mem_cons.1 hp
  · exact ⟨.leaf n _, .leaf n _⟩
  · split at hp
    · cases hp
    · rw [List.mem_singleton.1 hp]
      exact ⟨.leaf n _, h⟩

theorem plainPart_of_mem_children (n : Node) : ∀ c ∈ n.disassemble.children, PlainPart n c := by
  have hnil : ∀ c ∈ entryNodes [], PlainPart n c := fun c hc => absurd hc List.not_mem_nil
  cases n with
  | leaf e v => exact fun c hc => absurd hc List.not_mem_nil
  | dict e t ps => exact .of_entries fun d hd => hd
  | set e t es => exact .of_all fun d hd => hd
  | predicate e t as nt ps =>
    exact List.forall_mem_append.2 ⟨.of_all fun d hd => List.mem_append_left _ hd,
      .of_entries fun d hd => List.mem_append_right _ hd⟩
  | identity e i us =>
    exact List.forall_mem_append.2 ⟨List.forall_mem_singleton.2 (.leaf _ _),
      .of_layOver hnil fun d hd => hd⟩
  | claim e a b s g us =>
    exact List.forall_mem_append.2 ⟨List.forall_mem_singleton.2 (.child List.mem_cons_self),
      .of_layOver (.of_claimFields _ b g) fun d hd => List.mem_cons_of_mem _ hd⟩
  | verify e s us =>
    exact List.forall_mem_append.2 ⟨List.forall_mem_singleton.2 (.child List.mem_cons_self),
      .of_layOver hnil fun d hd => List.mem_cons_of_mem _ hd⟩
  | reachable e m vt vs ut uvs us =>
    exact List.forall_mem_append.2
      ⟨.of_all fun d hd => List.mem_append_left _ (List.mem_append_left _ hd),
        .of_layOver (.of_reachableFields (.unverified ..)) fun d hd => List.mem_append_right _ hd⟩

/-- What taking the plain form gives from one property to another at each node, it gives
throughout a document. -/
theorem Everywhere.disassemble {P Q : Node → Prop} (step : ∀ n, P n → Q n.disassemble)
    (leaf : ∀ v, Q (leaf none v))
    (unverified : ∀ e m vt vs ut uvs us, P (reachable e m vt vs ut uvs us) →
      Q (set none ut (disassembleAll uvs))) {n : Node} (h : n.Everywhere P) :
    n.disassemble.Everywhere Q := by
  induction n using induct_children with
  | step n ih =>
    refine everywhere_iff.2 ⟨step n h.self, fun c hc => ?_⟩
    cases plainPart_of_mem_children n c hc with
    | child hd => exact ih _ hd (h.child hd)
    | leaf v => exact everywhere_leaf.2 (leaf _)
    | unverified e m vt vs ut uvs us =>
      refine everywhere_set.2 ⟨unverified e m vt vs ut uvs us h.self, ?_⟩
      rw [disassembleAll_eq_map]
      refine List.forall_mem_map.2 fun d hd => ?_
      have hd : d ∈ (reachable e m vt vs ut uvs us).children :=
        List.mem_append_left _ (List.mem_append_right _ hd)
      exact ih d hd (h.child hd)

/-! ## The plain form is plain -/

theorem isPlain_disassemble (n : Node) : n.disassemble.isPlain = true := by
  have hall : n.Everywhere fun _ => True := fun _ _ => trivial
  refine isPlain_iff.2 (hall.disassemble (fun n _ => ?_) (fun v => rfl) ?_)
  · cases n <;> rfl
  · intros
    rfl

@[simp] theorem disassemble_disassemble (n : Node) : n.disassemble.disassemble = n.disassemble :=
  disassemble_of_isPlain (isPlain_disassemble n)

theorem eqv_disassemble (a b : Node) : a.disassemble.eqv b.disassemble = a.eqv b := by
  simp [eqv]

/-! ## The plain form of a well-formed document -/

theorem areDistinct_map_disassemble (ns : List Node) :
    areDistinct (ns.map disassemble) = areDistinct ns := by
  rw [Bool.eq_iff_iff, areDistinct_iff, areDistinct_iff, List.pairwise_map]
  simp only [eqv_disassemble]

theorem areDistinct_keys_disassembleEntries {ps : List (Node × Node)}
    (h : areDistinct (ps.map (·.1)) = true) :
    areDistinct ((disassembleEntries ps).map (·.1)) = true := by
  have hkeys : (disassembleEntries ps).map (·.1) = (ps.map (·.1)).map disassemble := by
    rw [disassembleEntries_eq_map, List.map_map, List.map_map]
    rfl
  rw [hkeys, areDistinct_map_disassemble]
  exact h

theorem pairwise_keys_disassembleEntries {ps : List (Node × Node)}
    (h : areDistinct (ps.map (·.1)) = true) :
    ((disassembleEntries ps).map (·.1)).Pairwise fun k l => same false k l = false := by
  rw [disassembleEntries_eq_map, List.map_map, List.pairwise_map]
  exact List.pairwise_map.1 (areDistinct_iff.1 h)

/-- Named arguments of a plain predicate are distinct when they are not equal as plain trees. -/
theorem areDistinct_keys_of_isPlain {e : Expiry} {t nt : String} {as : List Node}
    {ps : List (Node × Node)} (hplain : (predicate e t as nt ps).isPlain = true)
    (h : (ps.map (·.1)).Pairwise fun k l => same false k l = false) :
    areDistinct (ps.map (·.1)) = true := by
  have hkeys : ∀ k ∈ ps.map (·.1), k.isPlain = true := List.forall_mem_map.2 fun p hp =>
    (isPlain_iff_children.1 hplain).2 _ (List.mem_append_right _ (fst_mem_entryNodes hp))
  rw [areDistinct_iff]
  refine h.imp_of_mem fun hk hl hkl => ?_
  rw [eqv_of_isPlain (hkeys _ hk) (hkeys _ hl)]
  exact hkl

theorem same_ofString {s t : String} (h : s ≠ t) :
    same false (ofString s) (ofString t) = false := by
  rw [Bool.eq_false_iff, Ne, same_text_iff rfl]
  exact fun hst => h (Option.some.inj hst)

theorem pairwise_claimFields (signer : PeerId) (signature : List UInt8) :
    ((claimFields signer signature).map (·.1)).Pairwise fun k l => same false k l = false := by
  exact List.pairwise_pair.2 (same_ofString (by decide))

theorem pairwise_reachableFields (mode : ProbeMode) (ut : String) (uvs : List Node) :
    ((reachableFields mode ut uvs).map (·.1)).Pairwise fun k l => same false k l = false := by
  cases uvs with
  | nil => exact List.pairwise_singleton _ _
  | cons n uvs => exact List.pairwise_pair.2 (same_ofString (by decide))

theorem hasDistinctKeys_disassemble {n : Node} (h : n.HasDistinctKeys) :
    n.disassemble.HasDistinctKeys := by
  have hplain := isPlain_disassemble n
  cases n with
  | leaf e v => rfl
  | dict e t ps => exact areDistinct_keys_disassembleEntries h
  | set e t es => rfl
  | predicate e t as nt ps => exact areDistinct_keys_disassembleEntries h
  | identity e i us => exact areDistinct_keys_of_isPlain hplain (pairwise_layOver .nil)
  | claim e a b s g us =>
    exact areDistinct_keys_of_isPlain hplain (pairwise_layOver (pairwise_claimFields b g))
  | verify e s us => exact areDistinct_keys_of_isPlain hplain (pairwise_layOver .nil)
  | reachable e m vt vs ut uvs us =>
    exact areDistinct_keys_of_isPlain hplain (pairwise_layOver (pairwise_reachableFields m ut _))

/-- The plain form repeats no key if the document repeats none, whatever the elements of sets. -/
theorem distinctKeys_disassemble {n : Node} (h : n.Everywhere HasDistinctKeys) :
    n.disassemble.Everywhere HasDistinctKeys := by
  refine h.disassemble (fun n => hasDistinctKeys_disassemble) (fun v => rfl) ?_
  intros
  rfl

theorem isLocallyWellFormed_disassemble {n : Node} (h : n.isLocallyWellFormed = true) :
    n.disassemble.isLocallyWellFormed = true := by
  have hkeys := hasDistinctKeys_disassemble (hasDistinctKeys_of_local h)
  cases n with
  | set e t es =>
    rw [disassemble, isLocallyWellFormed, disassembleAll_eq_map, areDistinct_map_disassemble]
    exact h
  | _ => exact hkeys

theorem WellFormed.disassemble {n : Node} (h : n.WellFormed) : n.disassemble.WellFormed := by
  refine wellFormed_iff.2 ((wellFormed_iff.1 h).disassemble
    (fun n => isLocallyWellFormed_disassemble) (fun v => rfl) ?_)
  intro e m vt vs ut uvs us h
  simp only [isLocallyWellFormed, Bool.and_eq_true] at h
  rw [isLocallyWellFormed, disassembleAll_eq_map, areDistinct_map_disassemble]
  exact h.1.2

theorem WellFormed.tidy {n : Node} (h : n.WellFormed) : n.disassemble.Tidy :=
  ⟨isPlain_disassemble n, h.disassemble⟩

/-! ## Every document is equal to itself -/

/-- A key finds its own entry first. -/
theorem find?_own_entry {ps : List (Node × Node)}
    (h : ps.Pairwise fun p q => same false p.1 q.1 = false)
    (hself : ∀ p ∈ ps, same false p.1 p.1 = true) {p : Node × Node} (hp : p ∈ ps) :
    (ps.find? fun q => same true p.1 q.1) = some p := by
  induction ps with
  | nil => exact absurd hp List.not_mem_nil
  | cons r ps ih =>
    obtain ⟨hr, hps⟩ := List.pairwise_cons.1 h
    rcases List.mem_cons.1 hp with rfl | hp
    · apply List.find?_cons_of_pos
      rw [same_true]
      exact hself p List.mem_cons_self
    · have hne : same true p.1 r.1 = false := by
        rw [same_true]
        exact hr p hp
      rw [List.find?_cons_of_neg (by simp [hne])]
      exact ih hps (fun q hq => hself q (List.mem_cons_of_mem _ hq)) hp

theorem covered_self {ps : List (Node × Node)} (hplain : ∀ c ∈ entryNodes ps, c.isPlain = true)
    (hkeys : areDistinct (ps.map (·.1)) = true)
    (hself : ∀ c ∈ entryNodes ps, same false c c = true) : covered ps ps = true := by
  have hpair : ps.Pairwise fun p q => same false p.1 q.1 = false := by
    refine (List.pairwise_map.1 (areDistinct_iff.1 hkeys)).imp_of_mem fun hp hq hpq => ?_
    rw [← eqv_of_isPlain (hplain _ (fst_mem_entryNodes hp)) (hplain _ (fst_mem_entryNodes hq))]
    exact hpq
  refine covered_iff.2 fun p hp => ⟨p, ?_, ?_⟩
  · exact find?_own_entry hpair (fun q hq => hself _ (fst_mem_entryNodes hq)) hp
  · rw [same_true]
    exact hself _ (snd_mem_entryNodes hp)

/-- A plain tree that repeats no key is equal to itself, even if it repeats elements. -/
theorem same_self {n : Node} (hplain : n.isPlain = true) (h : n.Everywhere HasDistinctKeys) :
    same false n n = true := by
  induction n using induct_children with
  | step n ih =>
    have hchildren := (isPlain_iff_children.1 hplain).2
    have hself : ∀ c ∈ n.children, same false c c = true := fun c hc =>
      ih c hc (hchildren c hc) (h.child hc)
    have hkeys := h.self
    cases n with
    | leaf e v => cases v <;> simp [same, Leaf.alike, Decimal.alike]
    | dict e t ps =>
      have hps := covered_self hchildren hkeys hself
      simp [same, hps]
    | set e t es =>
      have hes : contained es es = true := by
        refine contained_iff.2 fun f hf => ⟨f, hf, ?_⟩
        rw [same_true]
        exact hself f hf
      simp [same, hes]
    | predicate e t as nt ps =>
      have hargs : pointwise false as as = true :=
        pointwise_iff.2 (List.forall₂_same.2 fun a ha => hself a (List.mem_append_left _ ha))
      have hps := covered_self (fun c hc => hchildren c (List.mem_append_right _ hc)) hkeys
        fun c hc => hself c (List.mem_append_right _ hc)
      simp [same, hargs, hps]
    | identity e i us => exact absurd hplain (by simp [isPlain])
    | claim e a b s g us => exact absurd hplain (by simp [isPlain])
    | verify e s us => exact absurd hplain (by simp [isPlain])
    | reachable e m vt vs ut uvs us => exact absurd hplain (by simp [isPlain])

theorem eqv_refl {a : Node} (h : a.Everywhere HasDistinctKeys) : a.eqv a = true :=
  same_self (isPlain_disassemble a) (distinctKeys_disassemble h)

/-! ## Structural equality of well-formed documents -/

theorem eqv_iff_alike {a b : Node} (ha : a.WellFormed) (hb : b.WellFormed) :
    a.eqv b = true ↔ Alike a.disassemble b.disassemble := same_iff_alike ha.tidy hb.tidy

theorem eqv_symm {a b : Node} (ha : a.WellFormed) (hb : b.WellFormed) (h : a.eqv b = true) :
    b.eqv a = true := (eqv_iff_alike hb ha).2 ((eqv_iff_alike ha hb).1 h).symm

theorem eqv_comm {a b : Node} (ha : a.WellFormed) (hb : b.WellFormed) : a.eqv b = b.eqv a := by
  rw [Bool.eq_iff_iff]
  exact ⟨eqv_symm ha hb, eqv_symm hb ha⟩

theorem eqv_trans {a b c : Node} (ha : a.WellFormed) (hb : b.WellFormed) (hc : c.WellFormed)
    (hab : a.eqv b = true) (hbc : b.eqv c = true) : a.eqv c = true :=
  (eqv_iff_alike ha hc).2 (((eqv_iff_alike ha hb).1 hab).trans ((eqv_iff_alike hb hc).1 hbc))

/-- Equal nodes are equal to the same nodes. -/
theorem eqv_congr_right {x u c : Node} (hx : x.WellFormed) (hu : u.WellFormed) (hc : c.WellFormed)
    (h : u.eqv c = true) : x.eqv u = x.eqv c := by
  rw [Bool.eq_iff_iff]
  exact ⟨fun hxu => eqv_trans hx hu hc hxu h, fun hxc => eqv_trans hx hc hu hxc (eqv_symm hu hc h)⟩

theorem eqv_congr_left {x u c : Node} (hx : x.WellFormed) (hu : u.WellFormed) (hc : c.WellFormed)
    (h : u.eqv c = true) : u.eqv x = c.eqv x := by
  rw [Bool.eq_iff_iff]
  exact ⟨eqv_trans hc hu hx (eqv_symm hu hc h), eqv_trans hu hc hx h⟩

/-! ## Expirations do not count -/

theorem disassemble_withExpiry (e : Expiry) (n : Node) :
    (n.withExpiry e).disassemble = n.disassemble.withExpiry e := by
  cases n <;> rfl

theorem same_withExpiry_left (flip : Bool) (e : Expiry) (a b : Node) :
    same flip (a.withExpiry e) b = same flip a b := by
  cases a <;> cases b <;> rfl

theorem same_withExpiry_right (flip : Bool) (e : Expiry) (a b : Node) :
    same flip a (b.withExpiry e) = same flip a b := by
  cases a <;> cases b <;> rfl

@[simp] theorem eqv_withExpiry_left (e : Expiry) (a b : Node) :
    (a.withExpiry e).eqv b = a.eqv b := by
  rw [eqv, disassemble_withExpiry, same_withExpiry_left, eqv]

@[simp] theorem eqv_withExpiry_right (e : Expiry) (a b : Node) :
    a.eqv (b.withExpiry e) = a.eqv b := by
  rw [eqv, disassemble_withExpiry, same_withExpiry_right, eqv]

end Node

end PeerRecords
