import PeerRecords.Node.WellFormed
import Mathlib.Logic.Relation
import Mathlib.Tactic.Tauto

/-
  The parts of a document.
  `children n` are the nodes that stand directly in `n`: keys, values, elements, arguments, user
  fields, statements. `Within v n` says that `v` occurs in `n` at some depth, `n` itself included,
  and `Everywhere P n` that `P` holds of all that occurs in `n`.
  The recursive predicates on documents are `Everywhere` of a local one: `isPlain_iff` and
  `wellFormed_iff`. So what an operation does to them follows from what it does to one node and
  where the children of its result come from.
-/

namespace PeerRecords.Node

/-- The keys and the values of a list of entries. -/
def entryNodes (ps : List (Node × Node)) : List Node := ps.flatMap fun p => [p.1, p.2]

/-- The nodes that stand directly in a node. -/
def children : Node → List Node
  | .leaf _ _ => []
  | .dict _ _ ps => entryNodes ps
  | .set _ _ es => es
  | .predicate _ _ as _ ps => as ++ entryNodes ps
  | .identity _ _ us => entryNodes us
  | .claim _ _ _ s _ us => s :: entryNodes us
  | .verify _ s us => s :: entryNodes us
  | .reachable _ _ _ vs _ uvs us => vs ++ uvs ++ entryNodes us

/-- A node occurs in another, at some depth. -/
def Within (v n : Node) : Prop := Relation.ReflTransGen (fun m c => c ∈ m.children) n v

/-- A property holds of everything that occurs in a node. -/
def Everywhere (P : Node → Prop) (n : Node) : Prop := ∀ v, v.Within n → P v

theorem mem_entryNodes {c : Node} {ps : List (Node × Node)} :
    c ∈ entryNodes ps ↔ ∃ p ∈ ps, c = p.1 ∨ c = p.2 := by
  simp [entryNodes, List.mem_flatMap]

theorem fst_mem_entryNodes {p : Node × Node} {ps : List (Node × Node)} (h : p ∈ ps) :
    p.1 ∈ entryNodes ps := mem_entryNodes.2 ⟨p, h, .inl rfl⟩

theorem snd_mem_entryNodes {p : Node × Node} {ps : List (Node × Node)} (h : p ∈ ps) :
    p.2 ∈ entryNodes ps := mem_entryNodes.2 ⟨p, h, .inr rfl⟩

@[simp] theorem children_withExpiry (e : Expiry) (n : Node) :
    (n.withExpiry e).children = n.children := by
  cases n <;> rfl

/-- Induction over documents by their children. -/
theorem induct_children {motive : Node → Prop}
    (step : ∀ n, (∀ c ∈ n.children, motive c) → motive n) (n : Node) : motive n := by
  have entries : ∀ {ps : List (Node × Node)}, (∀ p ∈ ps, motive p.1 ∧ motive p.2) →
      ∀ c ∈ entryNodes ps, motive c := by
    intro ps h c hc
    obtain ⟨p, hp, rfl | rfl⟩ := mem_entryNodes.1 hc
    · exact (h p hp).1
    · exact (h p hp).2
  have both : ∀ {xs ys : List Node}, (∀ c ∈ xs, motive c) → (∀ c ∈ ys, motive c) →
      ∀ c ∈ xs ++ ys, motive c :=
    fun hx hy c hc => (List.mem_append.1 hc).elim (hx c) (hy c)
  have first : ∀ {s : Node} {ys : List Node}, motive s → (∀ c ∈ ys, motive c) →
      ∀ c ∈ s :: ys, motive c :=
    fun hs hy c hc => (List.mem_cons.1 hc).elim (fun h => h ▸ hs) (hy c)
  induction n using Node.induct with
  | leaf e v => exact step _ fun c hc => absurd hc List.not_mem_nil
  | dict e t ps ih => exact step _ (entries ih)
  | set e t es ih => exact step _ ih
  | predicate e t as nt ps iha ihp => exact step _ (both iha (entries ihp))
  | identity e i us ih => exact step _ (entries ih)
  | claim e a b s g us ihs ihu => exact step _ (first ihs (entries ihu))
  | verify e s us ihs ihu => exact step _ (first ihs (entries ihu))
  | reachable e m vt vs ut uvs us ihv ihn ihu => exact step _ (both (both ihv ihn) (entries ihu))

/-! ## Occurrences -/

theorem Within.refl (n : Node) : n.Within n := Relation.ReflTransGen.refl

theorem Within.of_mem {v c n : Node} (h : v.Within c) (hc : c ∈ n.children) : v.Within n :=
  Relation.ReflTransGen.head hc h

theorem within_iff {v n : Node} : v.Within n ↔ v = n ∨ ∃ c ∈ n.children, v.Within c := by
  rw [Within, Relation.ReflTransGen.cases_head_iff]
  exact or_congr eq_comm Iff.rfl

theorem Everywhere.self {P : Node → Prop} {n : Node} (h : n.Everywhere P) : P n := h n (.refl n)

theorem Everywhere.child {P : Node → Prop} {c n : Node} (h : n.Everywhere P)
    (hc : c ∈ n.children) : c.Everywhere P := fun v hv => h v (hv.of_mem hc)

theorem everywhere_iff {P : Node → Prop} {n : Node} :
    n.Everywhere P ↔ P n ∧ ∀ c ∈ n.children, c.Everywhere P := by
  constructor
  · intro h
    exact ⟨h.self, fun c hc => h.child hc⟩
  · rintro ⟨hn, hc⟩ v hv
    obtain rfl | ⟨c, hcn, hvc⟩ := within_iff.1 hv
    · exact hn
    · exact hc c hcn v hvc

theorem forall_entryNodes {P : Node → Prop} {ps : List (Node × Node)} :
    (∀ c ∈ entryNodes ps, P c) ↔ ∀ p ∈ ps, P p.1 ∧ P p.2 := by
  induction ps with
  | nil => simp [entryNodes]
  | cons p ps ih =>
    have hcons : entryNodes (p :: ps) = p.1 :: p.2 :: entryNodes ps := rfl
    rw [hcons, List.forall_mem_cons, List.forall_mem_cons, List.forall_mem_cons, ih, and_assoc]

@[simp] theorem everywhere_leaf {P : Node → Prop} {e : Expiry} {v : Leaf} :
    (leaf e v).Everywhere P ↔ P (leaf e v) := by
  rw [everywhere_iff]
  simp [children]

@[simp] theorem everywhere_dict {P : Node → Prop} {e : Expiry} {t : String}
    {ps : List (Node × Node)} : (dict e t ps).Everywhere P ↔
      P (dict e t ps) ∧ ∀ p ∈ ps, p.1.Everywhere P ∧ p.2.Everywhere P := by
  rw [everywhere_iff, children, forall_entryNodes]

@[simp] theorem everywhere_set {P : Node → Prop} {e : Expiry} {t : String} {es : List Node} :
    (set e t es).Everywhere P ↔ P (set e t es) ∧ ∀ n ∈ es, n.Everywhere P := everywhere_iff

@[simp] theorem everywhere_predicate {P : Node → Prop} {e : Expiry} {t nt : String}
    {as : List Node} {ps : List (Node × Node)} : (predicate e t as nt ps).Everywhere P ↔
      P (predicate e t as nt ps) ∧ (∀ n ∈ as, n.Everywhere P) ∧
        ∀ p ∈ ps, p.1.Everywhere P ∧ p.2.Everywhere P := by
  rw [everywhere_iff, children, List.forall_mem_append, forall_entryNodes]

theorem Everywhere.mono {P Q : Node → Prop} (hPQ : ∀ n, P n → Q n) {n : Node}
    (h : n.Everywhere P) : n.Everywhere Q := fun v hv => hPQ v (h v hv)

theorem Everywhere.and {P Q : Node → Prop} {n : Node} (hP : n.Everywhere P)
    (hQ : n.Everywhere Q) : n.Everywhere fun v => P v ∧ Q v := fun v hv => ⟨hP v hv, hQ v hv⟩

/-- What does not go by the expiration holds in a node with another expiration. -/
theorem Everywhere.withExpiry {P : Node → Prop} (hP : ∀ e n, P n → P (n.withExpiry e)) (e : Expiry)
    {n : Node} (h : n.Everywhere P) : (n.withExpiry e).Everywhere P := by
  rw [everywhere_iff, children_withExpiry]
  exact ⟨hP e n h.self, fun c hc => h.child hc⟩

/-! ## Deciding what holds everywhere -/

mutual

/-- Whether a test holds of everything that occurs in a node. -/
def all (test : Node → Bool) : Node → Bool
  | .leaf e v => test (.leaf e v)
  | .dict e t ps => test (.dict e t ps) && allEntries test ps
  | .set e t es => test (.set e t es) && allNodes test es
  | .predicate e t as nt ps =>
    test (.predicate e t as nt ps) && (allNodes test as && allEntries test ps)
  | .identity e i us => test (.identity e i us) && allEntries test us
  | .claim e a b s g us => test (.claim e a b s g us) && (all test s && allEntries test us)
  | .verify e s us => test (.verify e s us) && (all test s && allEntries test us)
  | .reachable e m vt vs ut uvs us =>
    test (.reachable e m vt vs ut uvs us) &&
      ((allNodes test vs && allNodes test uvs) && allEntries test us)
termination_by structural n => n

/-- Whether a test holds of everything that occurs in the nodes of a list. -/
def allNodes (test : Node → Bool) : List Node → Bool
  | [] => true
  | n :: ns => all test n && allNodes test ns
termination_by structural ns => ns

/-- Whether a test holds of everything that occurs in the keys and values of a list of entries. -/
def allEntries (test : Node → Bool) : List (Node × Node) → Bool
  | [] => true
  | (k, v) :: ps => all test k && (all test v && allEntries test ps)
termination_by structural ps => ps

end

theorem allNodes_iff {test : Node → Bool} {ns : List Node} :
    allNodes test ns = true ↔ ∀ n ∈ ns, n.all test = true := by
  induction ns with
  | nil => simp [allNodes]
  | cons n ns ih => simp [allNodes, ih]

theorem allEntries_iff {test : Node → Bool} {ps : List (Node × Node)} :
    allEntries test ps = true ↔ ∀ c ∈ entryNodes ps, c.all test = true := by
  induction ps with
  | nil => simp [allEntries, entryNodes]
  | cons p ps ih =>
    obtain ⟨k, v⟩ := p
    simp [allEntries, ih, entryNodes]

theorem all_iff_children {test : Node → Bool} {n : Node} :
    n.all test = true ↔ test n = true ∧ ∀ c ∈ n.children, c.all test = true := by
  cases n <;> simp only [all, children, Bool.and_eq_true, allNodes_iff, allEntries_iff,
    List.forall_mem_append, List.forall_mem_cons, List.not_mem_nil, false_implies, implies_true,
    and_true]

theorem all_iff {test : Node → Bool} {n : Node} :
    n.all test = true ↔ n.Everywhere fun v => test v = true := by
  induction n using induct_children with
  | step n ih =>
    rw [all_iff_children, everywhere_iff]
    exact and_congr_right fun _ => forall₂_congr ih

instance (P : Node → Prop) [DecidablePred P] (n : Node) : Decidable (n.Everywhere P) :=
  decidable_of_iff (n.all fun v => decide (P v)) (by rw [all_iff]; simp only [decide_eq_true_eq])

/-! ## Plain documents -/

theorem arePlain_iff {ns : List Node} : arePlain ns = true ↔ ∀ n ∈ ns, n.isPlain = true := by
  induction ns with
  | nil => simp [arePlain]
  | cons n ns ih => simp [arePlain, ih]

theorem arePlainEntries_iff {ps : List (Node × Node)} :
    arePlainEntries ps = true ↔ ∀ c ∈ entryNodes ps, c.isPlain = true := by
  induction ps with
  | nil => simp [arePlainEntries, entryNodes]
  | cons p ps ih =>
    obtain ⟨k, v⟩ := p
    simp only [arePlainEntries, Bool.and_eq_true, ih, entryNodes, List.flatMap_cons]
    simp [and_assoc]

theorem isPlain_iff_children {n : Node} :
    n.isPlain = true ↔ n.isSmart = false ∧ ∀ c ∈ n.children, c.isPlain = true := by
  cases n with
  | leaf e v => simp [isPlain, isSmart, children]
  | dict e t ps => simp [isPlain, isSmart, children, arePlainEntries_iff]
  | set e t es => simp [isPlain, isSmart, children, arePlain_iff]
  | predicate e t as nt ps =>
    simp [isPlain, isSmart, children, arePlain_iff, arePlainEntries_iff, or_imp, forall_and]
  | identity e i us => simp [isPlain, isSmart]
  | claim e a b s g us => simp [isPlain, isSmart]
  | verify e s us => simp [isPlain, isSmart]
  | reachable e m vt vs ut uvs us => simp [isPlain, isSmart]

/-- A document is plain when nothing in it is a smart node. -/
theorem isPlain_iff {n : Node} :
    n.isPlain = true ↔ n.Everywhere fun v => v.isSmart = false := by
  induction n using induct_children with
  | step n ih =>
    rw [isPlain_iff_children, everywhere_iff]
    exact and_congr_right fun _ => forall₂_congr ih

/-! ## Well-formed documents -/

/-- Whether the keys and elements that a node itself holds are pairwise unequal. -/
def isLocallyWellFormed : Node → Bool
  | .leaf _ _ => true
  | .dict _ _ ps | .predicate _ _ _ _ ps => areDistinct (ps.map (·.1))
  | .set _ _ es => areDistinct es
  | .identity _ _ us | .claim _ _ _ _ _ us | .verify _ _ us => areDistinct (us.map (·.1))
  | .reachable _ _ _ vs _ uvs us => areDistinct vs && areDistinct uvs && areDistinct (us.map (·.1))

theorem allWellFormed_iff {ns : List Node} : allWellFormed ns = true ↔ ∀ n ∈ ns, n.WellFormed := by
  induction ns with
  | nil => simp [allWellFormed]
  | cons n ns ih => simp [allWellFormed, WellFormed, ih]

theorem allWellFormedEntries_iff {ps : List (Node × Node)} :
    allWellFormedEntries ps = true ↔ ∀ c ∈ entryNodes ps, c.WellFormed := by
  induction ps with
  | nil => simp [allWellFormedEntries, entryNodes]
  | cons p ps ih =>
    obtain ⟨k, v⟩ := p
    simp only [allWellFormedEntries, Bool.and_eq_true, ih, entryNodes, List.flatMap_cons]
    simp [WellFormed, and_assoc]

theorem wellFormed_iff_children {n : Node} :
    n.WellFormed ↔ n.isLocallyWellFormed = true ∧ ∀ c ∈ n.children, c.WellFormed := by
  unfold WellFormed
  cases n with
  | leaf e v => simp [isWellFormed, isLocallyWellFormed, children]
  | dict e t ps =>
    simp [isWellFormed, isLocallyWellFormed, children, allWellFormedEntries_iff, WellFormed]
  | set e t es => simp [isWellFormed, isLocallyWellFormed, children, allWellFormed_iff, WellFormed]
  | predicate e t as nt ps =>
    simp only [isWellFormed, isLocallyWellFormed, children, Bool.and_eq_true, allWellFormed_iff,
      allWellFormedEntries_iff, WellFormed, List.mem_append, or_imp, forall_and]
    tauto
  | identity e i us =>
    simp [isWellFormed, isLocallyWellFormed, children, allWellFormedEntries_iff, WellFormed]
  | claim e a b s g us =>
    simp only [isWellFormed, isLocallyWellFormed, children, Bool.and_eq_true,
      allWellFormedEntries_iff, WellFormed, List.mem_cons, or_imp, forall_and, forall_eq]
    tauto
  | verify e s us =>
    simp only [isWellFormed, isLocallyWellFormed, children, Bool.and_eq_true,
      allWellFormedEntries_iff, WellFormed, List.mem_cons, or_imp, forall_and, forall_eq]
    tauto
  | reachable e m vt vs ut uvs us =>
    simp only [isWellFormed, isLocallyWellFormed, children, Bool.and_eq_true, allWellFormed_iff,
      allWellFormedEntries_iff, WellFormed, List.mem_append, or_imp, forall_and]
    tauto

theorem WellFormed.child {c n : Node} (h : n.WellFormed) (hc : c ∈ n.children) : c.WellFormed :=
  (wellFormed_iff_children.1 h).2 c hc

/-- A document is well-formed when every node in it holds pairwise unequal keys and elements. -/
theorem wellFormed_iff {n : Node} :
    n.WellFormed ↔ n.Everywhere fun v => v.isLocallyWellFormed = true := by
  induction n using induct_children with
  | step n ih =>
    rw [wellFormed_iff_children, everywhere_iff]
    exact and_congr_right fun _ => forall₂_congr ih

/-! ## Entries and keys -/

/-- The entries of a dict, the named arguments of a predicate, the user's fields of a smart node. -/
def fields : Node → List (Node × Node)
  | .leaf _ _ | .set _ _ _ => []
  | .dict _ _ ps | .predicate _ _ _ _ ps => ps
  | .identity _ _ us | .claim _ _ _ _ _ us | .verify _ _ us | .reachable _ _ _ _ _ _ us => us

theorem entryNodes_fields_subset (n : Node) : entryNodes n.fields ⊆ n.children := by
  cases n with
  | leaf e v => exact List.Subset.refl _
  | set e t es => exact List.nil_subset _
  | dict e t ps => exact List.Subset.refl _
  | identity e i us => exact List.Subset.refl _
  | predicate e t as nt ps => exact List.subset_append_right _ _
  | claim e a b s g us => exact List.subset_cons_self _ _
  | verify e s us => exact List.subset_cons_self _ _
  | reachable e m vt vs ut uvs us => exact List.subset_append_right _ _

theorem fst_mem_children {n : Node} {p : Node × Node} (h : p ∈ n.fields) : p.1 ∈ n.children :=
  entryNodes_fields_subset n (fst_mem_entryNodes h)

theorem snd_mem_children {n : Node} {p : Node × Node} (h : p ∈ n.fields) : p.2 ∈ n.children :=
  entryNodes_fields_subset n (snd_mem_entryNodes h)

/-- The keys that a node itself holds, or that the user's fields of a smart node have. -/
def keys : Node → List Node
  | .leaf _ _ | .set _ _ _ => []
  | .dict _ _ ps | .predicate _ _ _ _ ps => ps.map (·.1)
  | .identity _ _ us | .claim _ _ _ _ _ us | .verify _ _ us | .reachable _ _ _ _ _ _ us =>
    us.map (·.1)

theorem keys_eq_map (n : Node) : n.keys = n.fields.map (·.1) := by cases n <;> rfl

/-- No two keys of the node are equal. -/
def HasDistinctKeys (n : Node) : Prop := areDistinct n.keys = true

instance (n : Node) : Decidable n.HasDistinctKeys :=
  inferInstanceAs (Decidable (areDistinct n.keys = true))

theorem hasDistinctKeys_of_local {n : Node} (h : n.isLocallyWellFormed = true) :
    n.HasDistinctKeys := by
  cases n with
  | leaf e v => rfl
  | set e t es => rfl
  | reachable e m vt vs ut uvs us =>
    simp only [isLocallyWellFormed, Bool.and_eq_true] at h
    exact h.2
  | _ => exact h

theorem WellFormed.distinctKeys {n : Node} (h : n.WellFormed) : n.Everywhere HasDistinctKeys :=
  (wellFormed_iff.1 h).mono fun _ => hasDistinctKeys_of_local

end PeerRecords.Node
