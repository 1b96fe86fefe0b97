import PeerRecords.Proofs.Node.View

/-
  Documents without their expirations.
  `timeless` takes every expiration out of a document. It is a view (`through_blank`), and so plain
  forms, equality, the addresses of candidates and updates are the same with and without
  expirations. What an update makes but for expirations can thus be shown on timeless documents, on
  which a refresh of what is there changes nothing (`refresh_of_isIn`).
-/

namespace PeerRecords

open Node

namespace Node

mutual

/-- The document without expirations, at any depth. -/
def timeless : Node → Node
  | .leaf _ v => .leaf none v
  | .dict _ t ps => .dict none t (timelessEntries ps)
  | .set _ t es => .set none t (timelessAll es)
  | .predicate _ t as nt ps => .predicate none t (timelessAll as) nt (timelessEntries ps)
  | .identity _ i us => .identity none i (timelessEntries us)
  | .claim _ a b s g us => .claim none a b (timeless s) g (timelessEntries us)
  | .verify _ s us => .verify none (timeless s) (timelessEntries us)
  | .reachable _ m vt vs ut uvs us =>
    .reachable none m vt (timelessAll vs) ut (timelessAll uvs) (timelessEntries us)
termination_by structural n => n

/-- The nodes of a list without expirations. -/
def timelessAll : List Node → List Node
  | [] => []
  | n :: ns => timeless n :: timelessAll ns
termination_by structural ns => ns

/-- The entries of a list without expirations. -/
def timelessEntries : List (Node × Node) → List (Node × Node)
  | [] => []
  | (k, v) :: ps => (timeless k, timeless v) :: timelessEntries ps
termination_by structural ps => ps

end

theorem timelessAll_eq_map (ns : List Node) : timelessAll ns = ns.map timeless := by
  induction ns with
  | nil => rfl
  | cons n ns ih => rw [timelessAll, ih, List.map_cons]

theorem timelessEntries_eq_map (ps : List (Node × Node)) :
    timelessEntries ps = ps.map (Prod.map timeless timeless) := by
  induction ps with
  | nil => rfl
  | cons p ps ih => obtain ⟨k, v⟩ := p; rw [timelessEntries, ih, List.map_cons, Prod.map_apply]

@[simp] theorem timeless_withExpiry (e : Expiry) (n : Node) :
    (n.withExpiry e).timeless = n.timeless := by
  cases n <;> rfl

@[simp] theorem expiry_timeless (n : Node) : n.timeless.expiry = none := by cases n <;> rfl

@[simp] theorem withExpiry_none_timeless (n : Node) : n.timeless.withExpiry none = n.timeless := by
  cases n <;> rfl

@[simp] theorem isSmart_timeless (n : Node) : n.timeless.isSmart = n.isSmart := by cases n <;> rfl

theorem children_timeless (n : Node) : n.timeless.children = n.children.map timeless := by
  have hentries : ∀ ps, entryNodes (timelessEntries ps) = (entryNodes ps).map timeless := by
    intro ps
    rw [timelessEntries_eq_map, entryNodes, List.flatMap_map, entryNodes, List.map_flatMap]
    rfl
  cases n <;> simp only [timeless, children, hentries, timelessAll_eq_map, List.map_append,
    List.map_cons, List.map_nil]

/-- What a property of single nodes makes of a node without its expirations, it makes throughout. -/
theorem Everywhere.timeless {P Q : Node → Prop} (hPQ : ∀ n, P n → Q n.timeless) {n : Node}
    (h : n.Everywhere P) : n.timeless.Everywhere Q := by
  induction n using induct_children with
  | step n ih =>
    rw [everywhere_iff, children_timeless]
    exact ⟨hPQ n h.self, List.forall_mem_map.2 fun c hc => ih c hc (h.child hc)⟩

end Node

/-- The later of two expirations that are not seen is not seen. -/
theorem Expiry.combine_unseen (_ _ : Expiry) : (none : Expiry) = Expiry.combine none none := rfl

/-- The view that sees literals as they are, and no expiration. -/
def View.blank : View := ⟨fun _ => none, id, Expiry.combine_unseen, leaf_alike_refl⟩

namespace Node

/-- A document without expirations is the document as it is seen through the blank view. -/
theorem through_blank (n : Node) : n.through .blank = n.timeless := by
  have hall : ∀ {ns : List Node}, (∀ n ∈ ns, n.through .blank = n.timeless) →
      throughAll .blank ns = timelessAll ns := by
    intro ns h
    rw [throughAll_eq_map, timelessAll_eq_map]
    exact List.map_congr_left h
  have hentries : ∀ {ps : List (Node × Node)},
      (∀ p ∈ ps, p.1.through .blank = p.1.timeless ∧ p.2.through .blank = p.2.timeless) →
      throughEntries .blank ps = timelessEntries ps := by
    intro ps h
    rw [throughEntries_eq_map, timelessEntries_eq_map]
    exact List.map_congr_left fun p hp => Prod.ext (h p hp).1 (h p hp).2
  -- Inside predicates and smart nodes the blank view stays what it is.
  have hinside : View.inside .blank = .blank := rfl
  induction n using Node.induct with
  | leaf e v => rfl
  | dict e t ps ih => rw [through, hentries ih, timeless]; rfl
  | set e t es ih => rw [through, hall ih, timeless]; rfl
  | predicate e t as nt ps iha ihp =>
    rw [through, hinside, hall iha, hentries ihp, timeless]; rfl
  | identity e i us ih => rw [through, hinside, hentries ih, timeless]; rfl
  | claim e a b s g us ihs ihu => rw [through, hinside, ihs, hentries ihu, timeless]; rfl
  | verify e s us ihs ihu => rw [through, hinside, ihs, hentries ihu, timeless]; rfl
  | reachable e m vt vs ut uvs us ihv ihn ihu =>
    rw [through, hinside, hall ihv, hall ihn, hentries ihu, timeless]; rfl

theorem map_through_blank (ns : List Node) : ns.map (through .blank) = ns.map timeless :=
  List.map_congr_left fun n _ => through_blank n

/-! ## Equality -/

@[simp] theorem eqv_timeless_left (a b : Node) : a.timeless.eqv b = a.eqv b := by
  rw [← through_blank, eqv_through_left]

@[simp] theorem eqv_timeless_right (a b : Node) : a.eqv b.timeless = a.eqv b := by
  rw [← through_blank, eqv_through_right]

/-- Documents that are the same but for expirations are equal to the same documents. -/
theorem eqv_of_timeless_eq {a b : Node} (hb : b.Everywhere HasDistinctKeys)
    (h : a.timeless = b.timeless) : a.eqv b = true := by
  rw [← through_blank, ← through_blank] at h
  exact eqv_of_through_eq hb h

theorem areDistinct_map_timeless (ns : List Node) :
    areDistinct (ns.map timeless) = areDistinct ns := by
  rw [← map_through_blank, areDistinct_map_through]

theorem keys_timeless (n : Node) : n.timeless.keys = n.keys.map timeless := by
  cases n <;> simp [timeless, keys, timelessEntries_eq_map]

theorem HasDistinctKeys.timeless {n : Node} (h : n.HasDistinctKeys) :
    n.timeless.HasDistinctKeys := by
  rw [HasDistinctKeys, keys_timeless, areDistinct_map_timeless]
  exact h

theorem isLocallyWellFormed_timeless (n : Node) :
    n.timeless.isLocallyWellFormed = n.isLocallyWellFormed := by
  have hkeys : ∀ ps : List (Node × Node),
      areDistinct ((timelessEntries ps).map (·.1)) = areDistinct (ps.map (·.1)) := by
    intro ps
    rw [← areDistinct_map_timeless (ps.map _), timelessEntries_eq_map, List.map_map, List.map_map]
    rfl
  cases n <;> simp only [timeless, isLocallyWellFormed, hkeys, timelessAll_eq_map,
    areDistinct_map_timeless]

theorem WellFormed.timeless {n : Node} (h : n.WellFormed) : n.timeless.WellFormed := by
  refine wellFormed_iff.2 ((wellFormed_iff.1 h).timeless fun n hn => ?_)
  rw [isLocallyWellFormed_timeless]
  exact hn

/-! ## Candidates and updates -/

theorem normalAddress?_timeless (n : Node) : n.timeless.normalAddress? = n.normalAddress? := by
  rw [← through_blank, normalAddress?_through]

theorem map_timeless_outstanding (vs us : List Node) :
    (outstanding vs us).map timeless = outstanding (vs.map timeless) (us.map timeless) := by
  simp only [← map_through_blank, map_through_outstanding]

/-- An update without expirations is the update of what is left without them. -/
theorem map_timeless_update (a b : Node) :
    (a.update b).map timeless = a.timeless.update b.timeless := by
  rw [← funext through_blank, map_through_update]

end Node

end PeerRecords
