import PeerRecords.Proofs.Merge.Symmetry

/-
  Merging so that the last writer wins, and updating.
  An update folds the newer document into the older one, a merge builds a third from both and asks a
  resolver where they do not agree. Where the kinds, the tags and what names smart nodes agree, at
  each key that both have (`Aligned`), only literals are left to the resolver, and the two
  recursions come to the same if it takes the right-hand side (`update_eqv_merge`). They place
  everything alike: what they make of two aligned nodes is `Parallel`, and parallel nodes are equal
  (`Parallel.twin`).
-/

namespace PeerRecords

open Node

namespace Node

/-! ## Nodes that are equal place by place -/

/-- Two well-formed nodes that are equal. -/
structure Twin (x y : Node) : Prop where
  left : x.WellFormed
  right : y.WellFormed
  eqv : x.eqv y = true

/-- Two entries have equal keys and equal values. -/
structure TwinEntry (p q : Node × Node) : Prop where
  key : Twin p.1 q.1
  value : Twin p.2 q.2

theorem Twin.refl {n : Node} (h : n.WellFormed) : Twin n n := ⟨h, h, eqv_refl h.distinctKeys⟩

/-- Nodes with pairwise unequal twins are pairwise unequal. -/
theorem areDistinct_of_twins {ns ms : List Node} (h : List.Forall₂ Twin ns ms)
    (hns : areDistinct ns = true) : areDistinct ms = true := by
  rw [areDistinct_iff] at hns ⊢
  refine pairwise_of_forall₂ h hns fun {n n' m m'} hn hn' hne => ?_
  rw [← eqv_congr_left hn'.right hn.left hn.right hn.eqv,
    ← eqv_congr_right hn.left hn'.left hn'.right hn'.eqv]
  exact hne

theorem areDistinct_keys_of_twins {ps qs : List (Node × Node)} (h : List.Forall₂ TwinEntry ps qs)
    (hps : areDistinct (ps.map (·.1)) = true) : areDistinct (qs.map (·.1)) = true := by
  refine areDistinct_of_twins ?_ hps
  rw [List.forall₂_map_left_iff, List.forall₂_map_right_iff]
  exact h.imp fun p q hpq => hpq.key

/-- A node is in a list just if it is in the list of the twins. -/
theorem isIn_of_twins {ns ms : List Node} (h : List.Forall₂ Twin ns ms) {x : Node}
    (hx : x.WellFormed) : x.isIn ns = x.isIn ms := by
  induction h with
  | nil => rfl
  | @cons n m ns ms hnm _ ih =>
    rw [isIn, List.any_cons, ← isIn, ih, eqv_congr_left hx hnm.left hnm.right hnm.eqv]
    rfl

theorem same_of_twins {ps qs : List (Node × Node)} (h : List.Forall₂ TwinEntry ps qs) :
    Entries.Same ps qs := by
  intro k hk
  induction h with
  | nil => exact .none
  | @cons p q ps qs hpq _ ih =>
    rw [Entries.at?_cons, Entries.at?_cons,
      eqv_congr_left hk hpq.key.left hpq.key.right hpq.key.eqv]
    split
    · exact .some hpq.value.eqv
    · exact ih

/-- Entries that are the same have the same keys. -/
theorem at?_eq_none_iff_of_same {ps qs : List (Node × Node)} (h : Entries.Same ps qs) {k : Node}
    (hk : k.WellFormed) : Entries.at? k ps = none ↔ Entries.at? k qs = none := by
  have hsame := h k hk
  generalize Entries.at? k ps = o, Entries.at? k qs = o' at hsame ⊢
  cases hsame <;> simp

theorem wellFormed_of_twins {ns ms : List Node} (h : List.Forall₂ Twin ns ms) :
    ∀ m ∈ ms, m.WellFormed := fun m hm => by
  obtain ⟨n, _, hnm⟩ := exists_of_forall₂_right h hm
  exact hnm.right

theorem wellFormed_entryNodes_of_twins {ps qs : List (Node × Node)}
    (h : List.Forall₂ TwinEntry ps qs) : ∀ c ∈ entryNodes qs, c.WellFormed := by
  refine forall_entryNodes.2 fun q hq => ?_
  obtain ⟨p, _, hpq⟩ := exists_of_forall₂_right h hq
  exact ⟨hpq.key.right, hpq.value.right⟩

/-- Two nodes have one head, and what stands in them are twins, place by place. -/
inductive Parallel : Node → Node → Prop where
  | leaf (e e' : Expiry) {v v' : Leaf} (h : v.alike v' = true) :
    Parallel (.leaf e v) (.leaf e' v')
  | dict (e e' : Expiry) (t : String) {ps qs : List (Node × Node)}
      (h : List.Forall₂ TwinEntry ps qs) : Parallel (.dict e t ps) (.dict e' t qs)
  | set (e e' : Expiry) (t : String) {es fs : List Node} (h : List.Forall₂ Twin es fs) :
    Parallel (.set e t es) (.set e' t fs)
  | predicate (e e' : Expiry) (t nt : String) {as bs : List Node} {ps qs : List (Node × Node)}
      (has : List.Forall₂ Twin as bs) (h : List.Forall₂ TwinEntry ps qs) :
    Parallel (.predicate e t as nt ps) (.predicate e' t bs nt qs)
  | identity (e e' : Expiry) (i : Identity) {us us' : List (Node × Node)}
      (h : List.Forall₂ TwinEntry us us') : Parallel (.identity e i us) (.identity e' i us')
  | claim (e e' : Expiry) (x : Assurance) (p : PeerId) {s s' : Node} (hs : Twin s s')
      (g : List UInt8) {us us' : List (Node × Node)} (h : List.Forall₂ TwinEntry us us') :
    Parallel (.claim e x p s g us) (.claim e' x p s' g us')
  | verify (e e' : Expiry) {s s' : Node} (hs : Twin s s') {us us' : List (Node × Node)}
      (h : List.Forall₂ TwinEntry us us') : Parallel (.verify e s us) (.verify e' s' us')
  | reachable (e e' : Expiry) (m : ProbeMode) (vt ut : String) {vs vs' uvs uvs' : List Node}
      (hvs : List.Forall₂ Twin vs vs') (huvs : List.Forall₂ Twin uvs uvs')
      {us us' : List (Node × Node)} (h : List.Forall₂ TwinEntry us us') :
    Parallel (.reachable e m vt vs ut uvs us) (.reachable e' m vt vs' ut uvs' us')

theorem Parallel.wellFormed {a b : Node} (h : Parallel a b) (ha : a.WellFormed) : b.WellFormed := by
  have hlocal := (wellFormed_iff_children.1 ha).1
  rw [wellFormed_iff_children]
  cases h with
  | leaf e e' h => exact ⟨rfl, fun c hc => absurd hc List.not_mem_nil⟩
  | dict e e' t h =>
    exact ⟨areDistinct_keys_of_twins h hlocal, wellFormed_entryNodes_of_twins h⟩
  | set e e' t h => exact ⟨areDistinct_of_twins h hlocal, wellFormed_of_twins h⟩
  | predicate e e' t nt has h =>
    exact ⟨areDistinct_keys_of_twins h hlocal, List.forall_mem_append.2
      ⟨wellFormed_of_twins has, wellFormed_entryNodes_of_twins h⟩⟩
  | identity e e' i h =>
    exact ⟨areDistinct_keys_of_twins h hlocal, wellFormed_entryNodes_of_twins h⟩
  | claim e e' x p hs g h =>
    exact ⟨areDistinct_keys_of_twins h hlocal,
      List.forall_mem_cons.2 ⟨hs.right, wellFormed_entryNodes_of_twins h⟩⟩
  | verify e e' hs h =>
    exact ⟨areDistinct_keys_of_twins h hlocal,
      List.forall_mem_cons.2 ⟨hs.right, wellFormed_entryNodes_of_twins h⟩⟩
  | reachable e e' m vt ut hvs huvs h =>
    simp only [isLocallyWellFormed, Bool.and_eq_true] at hlocal ⊢
    exact ⟨⟨⟨areDistinct_of_twins hvs hlocal.1.1, areDistinct_of_twins huvs hlocal.1.2⟩,
      areDistinct_keys_of_twins h hlocal.2⟩, List.forall_mem_append.2 ⟨List.forall_mem_append.2
        ⟨wellFormed_of_twins hvs, wellFormed_of_twins huvs⟩, wellFormed_entryNodes_of_twins h⟩⟩

/-- Parallel nodes are twins. -/
theorem Parallel.twin {a b : Node} (h : Parallel a b) (ha : a.WellFormed) : Twin a b := by
  have hb := h.wellFormed ha
  have hkeyed := ha.keyed
  have hkeyed' := hb.keyed
  have hsame : Entries.Same a.fields b.fields := by
    cases h with
    | leaf e e' h => exact fun k _ => .none
    | set e e' t h => exact fun k _ => .none
    | dict e e' t h => exact same_of_twins h
    | predicate e e' t nt has h => exact same_of_twins h
    | identity e e' i h => exact same_of_twins h
    | claim e e' x p hs g h => exact same_of_twins h
    | verify e e' hs h => exact same_of_twins h
    | reachable e e' m vt ut hvs huvs h => exact same_of_twins h
  have hkeys : ∀ k : Node, k.WellFormed →
      (Entries.at? k a.fields = none ↔ Entries.at? k b.fields = none) :=
    fun k hk => at?_eq_none_iff_of_same hsame hk
  refine ⟨ha, hb, ?_⟩
  cases h with
  | leaf e e' h => exact h
  | dict e e' t h => exact (eqv_dict_iff ha hb).2 ⟨rfl, hsame⟩
  | set e e' t h => exact eqv_set_of_isIn ha hb fun _ hx => isIn_of_twins h hx
  | predicate e e' t nt has h =>
    exact (eqv_iff_of_disassemble ha hb rfl rfl).2 ⟨rfl,
      forall₂_eqv_disassembleAll.2 (has.imp fun x y hxy => hxy.eqv), rfl,
      Entries.same_disassembleEntries.2 hsame⟩
  | identity e e' i h =>
    exact (eqv_iff_of_disassemble ha hb rfl rfl).2 ⟨rfl, .cons (eqv_ofString_self _) .nil, rfl,
      (Entries.same_fields_self_iff tidy_nil hkeyed hkeyed' hkeys).2 hsame⟩
  | claim e e' x p hs g h =>
    exact (eqv_iff_of_disassemble ha hb rfl rfl).2 ⟨rfl,
      .cons ((eqv_disassemble _ _).trans hs.eqv) .nil, rfl,
      (Entries.same_fields_self_iff (tidy_claimFields p g) hkeyed hkeyed' hkeys).2 hsame⟩
  | verify e e' hs h =>
    exact (eqv_iff_of_disassemble ha hb rfl rfl).2 ⟨rfl,
      .cons ((eqv_disassemble _ _).trans hs.eqv) .nil, rfl,
      (Entries.same_fields_self_iff tidy_nil hkeyed hkeyed' hkeys).2 hsame⟩
  | @reachable e e' m vt ut vs vs' uvs uvs' hvs huvs us us' h =>
    have hcandidates : SameCandidates ut uvs ut uvs' := by
      have huvswf : (Node.set none ut uvs).WellFormed := by
        have hlocal := (wellFormed_iff_children.1 ha).1
        simp only [isLocallyWellFormed, Bool.and_eq_true] at hlocal
        exact wellFormed_iff_children.2 ⟨hlocal.1.2, fun c hc =>
          ha.child (List.mem_append_left _ (List.mem_append_right _ hc))⟩
      exact .inr (eqv_set_of_isIn huvswf ((Parallel.set none none ut huvs).wellFormed huvswf)
        fun _ hx => isIn_of_twins huvs hx)
    exact (eqv_iff_of_disassemble ha hb rfl rfl).2 ⟨rfl,
      forall₂_eqv_disassembleAll.2 (hvs.imp fun x y hxy => hxy.eqv), rfl,
      (Entries.same_fields_iff (tidy_reachableFields m _ _) (tidy_reachableFields m _ _) hkeyed
        hkeyed' hkeys).2 ⟨hsame, (same_reachableFields_iff hkeyed m ut ut uvs uvs').2
          fun _ => hcandidates⟩⟩

/-! ## Lists that are refreshed and lists that are united -/

theorem refreshAll_eq_addAll {ns ms : List Node} (hms : ∀ m ∈ ms, m.expiry = none) :
    NodeSet.refreshAll ns ms = NodeSet.addAll ns ms := by
  induction ms generalizing ns with
  | nil => rfl
  | cons m ms ih =>
    obtain ⟨hm, hms⟩ := List.forall_mem_cons.1 hms
    have hstep : NodeSet.refresh m ns = NodeSet.addTo ns m := by
      cases hin : m.isIn ns with
      | true => rw [NodeSet.refresh_of_isIn hm hin, NodeSet.addTo_of_isIn hin]
      | false => rw [NodeSet.refresh_of_not_isIn hin, NodeSet.addTo_of_not_isIn hin]
    rw [NodeSet.refreshAll_cons, NodeSet.addAll_cons, hstep]
    exact ih hms

/-- But for expirations, a list is refreshed as it is united. -/
theorem map_timeless_refreshAll (ns ms : List Node) :
    (NodeSet.refreshAll ns ms).map timeless = (NodeSet.addAll ns ms).map timeless := by
  rw [← map_through_blank, ← map_through_blank, NodeSet.map_through_refreshAll,
    NodeSet.map_through_addAll]
  refine refreshAll_eq_addAll fun m hm => ?_
  obtain ⟨n, _, rfl⟩ := List.mem_map.1 hm
  rw [through_blank, expiry_timeless]

theorem twins_of_map_timeless {ns ms : List Node} (hns : ∀ n ∈ ns, n.WellFormed)
    (hms : ∀ m ∈ ms, m.WellFormed) (h : ns.map timeless = ms.map timeless) :
    List.Forall₂ Twin ns ms := by
  induction ns generalizing ms with
  | nil =>
    rw [List.map_nil, eq_comm, List.map_eq_nil_iff] at h
    rw [h]
    exact .nil
  | cons n ns ih =>
    cases ms with
    | nil => cases h
    | cons m ms =>
      obtain ⟨hn, hns⟩ := List.forall_mem_cons.1 hns
      obtain ⟨hm, hms⟩ := List.forall_mem_cons.1 hms
      obtain ⟨hnm, hrest⟩ := List.cons.inj h
      exact .cons ⟨hn, hm, eqv_of_timeless_eq hm.distinctKeys hnm⟩ (ih hns hms hrest)

section

variable {ns ms : List Node} (hns : ∀ n ∈ ns, n.WellFormed) (hms : ∀ m ∈ ms, m.WellFormed)
include hns hms

theorem twins_refreshAll :
    List.Forall₂ Twin (NodeSet.refreshAll ns ms) (NodeSet.addAll ns ms) :=
  twins_of_map_timeless (NodeSet.wellFormed_refreshAll hns hms) (NodeSet.wellFormed_addAll hns hms)
    (map_timeless_refreshAll ns ms)

theorem twins_outstanding (vs ws : List Node) : List.Forall₂ Twin
    (outstanding (NodeSet.refreshAll vs ws) (NodeSet.refreshAll ns ms))
    (outstanding (NodeSet.addAll vs ws) (NodeSet.addAll ns ms)) := by
  refine twins_of_map_timeless (fun n hn => ?_) (fun n hn => ?_) ?_
  · exact NodeSet.wellFormed_refreshAll hns hms n (mem_of_mem_outstanding hn)
  · exact NodeSet.wellFormed_addAll hns hms n (mem_of_mem_outstanding hn)
  · simp only [map_timeless_outstanding, map_timeless_refreshAll]

end

/-! ## Entries that are folded in and entries that are merged -/

/-- A value with its partner folded in, if it has one. -/
def updatedValue (v : Node) : Option Node → Except Error Node
  | some w => v.update w
  | none => .ok v

/-- The first entry takes in what there is at its key, and its key is refreshed. The others take in
the rest. -/
theorem exists_updateEntries_cons {p : Node × Node} {ps qs us : List (Node × Node)} {w : Node}
    (hp : p.1.WellFormed) (hqs : Entries.Keyed qs)
    (hw : updatedValue p.2 (Entries.at? p.1 qs) = .ok w)
    (hus : updateEntries ps (Entries.without p.1 qs) = .ok us) :
    ∃ e, updateEntries (p :: ps) qs = .ok ((p.1.withExpiry e, w) :: us) := by
  induction qs generalizing p ps with
  | nil =>
    cases hw
    cases hus
    exact ⟨p.1.expiry, by rw [withExpiry_expiry]; rfl⟩
  | cons q qs ih =>
    obtain ⟨⟨hq, _⟩, hrest⟩ := Entries.keyed_cons_iff.1 hqs
    rw [Entries.at?_cons] at hw
    rw [Entries.without_cons] at hus
    rw [updateEntries_cons, Entries.foldIn_cons, eqv_comm hp hq]
    cases hqp : q.1.eqv p.1 with
    | true =>
      rw [if_pos hqp] at hw hus
      -- No later key is the same, so the rest passes the entry by.
      have hnone : Entries.at? (p.1.refreshedBy q.1) qs = none :=
        Entries.at?_eq_none_iff.2 fun x hx => by
          rw [eqv_refreshedBy_right]
          exact hqs.forall_tail_ne hp hqp x hx
      have hothers : Entries.without (p.1.refreshedBy q.1) qs = Entries.without p.1 qs := by
        simp only [Entries.without, eqv_refreshedBy_right]
      obtain ⟨e, he⟩ := ih (p := (p.1.refreshedBy q.1, w)) (hp.refreshedBy q.1) hrest
        (by rw [hnone]; rfl) (by rw [hothers]; exact hus)
      refine ⟨e, ?_⟩
      have hstep : p.2.update q.2 = .ok w := hw
      rw [if_pos rfl, hstep, ok_bind, ok_bind, he, refreshedBy, withExpiry_withExpiry]
    | false =>
      rw [if_neg (by simp [hqp])] at hw hus
      obtain ⟨us', hus', hus⟩ := bind_eq_ok.1 hus
      rw [if_neg Bool.false_ne_true, hus', ok_bind, ok_bind]
      exact ih hp hrest hw hus

/-! ## Documents that are aligned -/

/-- An update succeeds, a merge in which the last writer wins succeeds, and their results are
equal. -/
def Coincide (a b : Node) : Prop :=
  ∃ u m, a.update b = .ok u ∧ merge Resolver.lastWriterWins a b = .ok m ∧ Twin u m

theorem exists_twinEntries {ps qs : List (Node × Node)} (hps : Entries.Keyed ps)
    (hqs : Entries.Keyed qs) (hpvalues : ∀ p ∈ ps, p.2.WellFormed)
    (hqvalues : ∀ q ∈ qs, q.2.WellFormed)
    (h : ∀ p ∈ ps, ∀ q ∈ qs, p.1.eqv q.1 = true → Coincide p.2 q.2) :
    ∃ us ms, updateEntries ps qs = .ok us ∧ mergedEntries Resolver.lastWriterWins ps qs = .ok ms ∧
      List.Forall₂ TwinEntry us ms := by
  induction ps generalizing qs with
  | nil =>
    refine ⟨qs, qs, updateEntries_nil hqs.distinct, mergedEntries_nil_left _ qs, ?_⟩
    exact List.forall₂_same.2 fun q hq => ⟨.refl (hqs.wellFormed q hq), .refl (hqvalues q hq)⟩
  | cons p ps ih =>
    obtain ⟨⟨hp, hother⟩, hkeyed⟩ := Entries.keyed_cons_iff.1 hps
    obtain ⟨hpvalue, hpvalues⟩ := List.forall_mem_cons.1 hpvalues
    obtain ⟨hhere, hothers⟩ := List.forall_mem_cons.1 h
    have hsub : ∀ q ∈ Entries.without p.1 qs, q ∈ qs := fun q hq => (List.mem_filter.1 hq).1
    obtain ⟨us, ms, hus, hms, htwins⟩ := ih hkeyed (hqs.without p.1) hpvalues
      (fun q hq => hqvalues q (hsub q hq)) fun x hx q hq => hothers x hx q (hsub q hq)
    obtain ⟨w, x, hw, hx, hwx⟩ : ∃ w x, updatedValue p.2 (Entries.at? p.1 qs) = .ok w ∧
        mergedValue Resolver.lastWriterWins p.2 (Entries.at? p.1 qs) = .ok x ∧ Twin w x := by
      cases hat : Entries.at? p.1 qs with
      | none => exact ⟨p.2, p.2, rfl, rfl, .refl hpvalue⟩
      | some v =>
        obtain ⟨q, hq, hkey, rfl⟩ := Entries.mem_of_at? hat
        exact hhere q hq (eqv_symm (hqs.wellFormed q hq) hp hkey)
    obtain ⟨e, he⟩ := exists_updateEntries_cons hp hqs hw hus
    refine ⟨_, _, he, by rw [mergedEntries_cons _ hps hqs, hx, ok_bind, hms, ok_bind], ?_⟩
    refine .cons ⟨⟨hp.withExpiry e, hp, ?_⟩, hwx⟩ htwins
    rw [eqv_withExpiry_left]
    exact eqv_refl hp.distinctKeys

/-- Two documents are aligned: two literals of one kind; two sets with one tag; two dicts or two
predicates with one tag whose values at equal keys are aligned; or two smart nodes of one kind that
are named alike, with the user's values at equal keys aligned. -/
inductive Aligned : Node → Node → Prop where
  | leaf (e e' : Expiry) {v v' : Leaf} (h : v.kind = v'.kind) : Aligned (.leaf e v) (.leaf e' v')
  | dict (e e' : Expiry) (t : String) {ps qs : List (Node × Node)}
      (h : ∀ p ∈ ps, ∀ q ∈ qs, p.1.eqv q.1 = true → Aligned p.2 q.2) :
    Aligned (.dict e t ps) (.dict e' t qs)
  | set (e e' : Expiry) (t : String) (es fs : List Node) : Aligned (.set e t es) (.set e' t fs)
  | predicate (e e' : Expiry) (t nt nt' : String) (as bs : List Node) {ps qs : List (Node × Node)}
      (h : ∀ p ∈ ps, ∀ q ∈ qs, p.1.eqv q.1 = true → Aligned p.2 q.2) :
    Aligned (.predicate e t as nt ps) (.predicate e' t bs nt' qs)
  | identity (e e' : Expiry) (i : Identity) {us us' : List (Node × Node)}
      (h : ∀ p ∈ us, ∀ q ∈ us', p.1.eqv q.1 = true → Aligned p.2 q.2) :
    Aligned (.identity e i us) (.identity e' i us')
  | claim (e e' : Expiry) (x : Assurance) (p : PeerId) {s s' : Node} (hs : s.eqv s' = true)
      (g : List UInt8) {us us' : List (Node × Node)}
      (h : ∀ p ∈ us, ∀ q ∈ us', p.1.eqv q.1 = true → Aligned p.2 q.2) :
    Aligned (.claim e x p s g us) (.claim e' x p s' g us')
  | verify (e e' : Expiry) {s s' : Node} (hs : s.eqv s' = true) {us us' : List (Node × Node)}
      (h : ∀ p ∈ us, ∀ q ∈ us', p.1.eqv q.1 = true → Aligned p.2 q.2) :
    Aligned (.verify e s us) (.verify e' s' us')
  | reachable (e e' : Expiry) (m : ProbeMode) (vt ut : String) (vs vs' uvs uvs' : List Node)
      {us us' : List (Node × Node)}
      (h : ∀ p ∈ us, ∀ q ∈ us', p.1.eqv q.1 = true → Aligned p.2 q.2) :
    Aligned (.reachable e m vt vs ut uvs us) (.reachable e' m vt vs' ut uvs' us')

theorem Identity.fits_self (i : Identity) : i.Fits i := by cases i <;> constructor

/-- Aligned literals differ at most in what the resolver settles. -/
theorem coincide_leaf (e e' : Expiry) {v v' : Leaf} (h : v.kind = v'.kind) :
    Coincide (leaf e v) (leaf e' v') := by
  have hupdate : (leaf e v).update (leaf e' v') = .ok (leaf (Expiry.combine e e') v') := by
    rw [update, if_pos h]
  cases halike : v.alike v' with
  | true =>
    refine ⟨_, _, hupdate, merge_leaf _ e e' halike, ?_⟩
    exact (Parallel.leaf _ _ ((leaf_alike_comm _ _).trans halike)).twin rfl
  | false =>
    have hmerge : merge Resolver.lastWriterWins (leaf e v) (leaf e' v') = .ok (leaf e' v') := by
      rw [merge, halike]
      rfl
    exact ⟨_, _, hupdate, hmerge, (Parallel.leaf _ _ (leaf_alike_refl v')).twin rfl⟩

/-- The entries of two well-formed nodes whose values at equal keys coincide. -/
theorem exists_twinFields {a b : Node} (ha : a.WellFormed) (hb : b.WellFormed)
    (h : ∀ p ∈ a.fields, ∀ q ∈ b.fields, p.1.eqv q.1 = true → p.2.WellFormed → q.2.WellFormed →
      Coincide p.2 q.2) :
    ∃ us ms, updateEntries a.fields b.fields = .ok us ∧
      mergedEntries Resolver.lastWriterWins a.fields b.fields = .ok ms ∧
      List.Forall₂ TwinEntry us ms := by
  have hav : ∀ p ∈ a.fields, p.2.WellFormed := fun p hp => ha.child (snd_mem_children hp)
  have hbv : ∀ q ∈ b.fields, q.2.WellFormed := fun q hq => hb.child (snd_mem_children hq)
  exact exists_twinEntries ha.keyed hb.keyed hav hbv fun p hp q hq hkey =>
    h p hp q hq hkey (hav p hp) (hbv q hq)

theorem Updated.coincide {a b u m : Node} (hu : Updated a b u) (ha : a.WellFormed)
    (hb : b.WellFormed) (hm : merge Resolver.lastWriterWins a b = .ok m) (hum : Parallel u m) :
    Coincide a b :=
  ⟨u, m, hu.update_eq_ok, hm, hum.twin (ha.update hb hu.update_eq_ok)⟩

/-- The same where the merge puts its entries, once they are merged, in a node. -/
theorem Updated.coincide_fields {a b u : Node} {ms : List (Node × Node)}
    {f : List (Node × Node) → Node} (hu : Updated a b u) (ha : a.WellFormed) (hb : b.WellFormed)
    (hm : merge Resolver.lastWriterWins a b =
      mergedEntries Resolver.lastWriterWins a.fields b.fields >>= fun rs => .ok (f rs))
    (hms : mergedEntries Resolver.lastWriterWins a.fields b.fields = .ok ms)
    (hum : Parallel u (f ms)) : Coincide a b :=
  hu.coincide ha hb (by rw [hm, hms, ok_bind]) hum

/-- An update and a merge of aligned well-formed documents coincide. -/
theorem Aligned.coincide {a b : Node} (h : Aligned a b) (ha : a.WellFormed) (hb : b.WellFormed) :
    Coincide a b := by
  induction h with
  | leaf e e' h => exact coincide_leaf e e' h
  | set e e' t es fs =>
    refine (Updated.set e e' t es fs).coincide ha hb (merge_set _ e e' t es fs) (.set _ _ t ?_)
    exact twins_refreshAll (fun c hc => ha.child hc) fun c hc => hb.child hc
  | dict e e' t h ih =>
    obtain ⟨us, ms, hus, hms, htwins⟩ := exists_twinFields ha hb ih
    exact (Updated.dict e e' t t hus).coincide_fields ha hb (merge_dict _ e e' t _ _) hms
      (.dict _ _ t htwins)
  | predicate e e' t nt nt' as bs h ih =>
    obtain ⟨us, ms, hus, hms, htwins⟩ := exists_twinFields ha hb ih
    have hargs : List.Forall₂ Twin (NodeSet.refreshAll as bs) (NodeSet.addAll as bs) :=
      twins_refreshAll (fun c hc => ha.child (List.mem_append_left _ hc))
        fun c hc => hb.child (List.mem_append_left _ hc)
    exact (Updated.predicate e e' t t nt nt' as bs hus).coincide_fields ha hb
      (merge_predicate _ e e' t nt nt' as bs _ _) hms (.predicate _ _ t nt hargs htwins)
  | identity e e' i h ih =>
    obtain ⟨us, ms, hus, hms, htwins⟩ := exists_twinFields ha hb ih
    exact (Updated.identity e e' (Identity.fits_self i).update_eq_ok hus).coincide_fields ha hb
      (merge_identity _ e e' i _ _) hms (.identity _ _ i htwins)
  | claim e e' x p hs g h ih =>
    obtain ⟨us, ms, hus, hms, htwins⟩ := exists_twinFields ha hb ih
    have hs' := eqv_symm (ha.child List.mem_cons_self) (hb.child List.mem_cons_self) hs
    exact (Updated.claim e e' x p p _ _ g g hus).coincide_fields ha hb
      (merge_claim _ e e' x p hs' g _ _) hms (.claim _ _ x p
        ⟨hb.child List.mem_cons_self, ha.child List.mem_cons_self, hs'⟩ g htwins)
  | verify e e' hs h ih =>
    obtain ⟨us, ms, hus, hms, htwins⟩ := exists_twinFields ha hb ih
    have hs' := eqv_symm (ha.child List.mem_cons_self) (hb.child List.mem_cons_self) hs
    exact (Updated.verify e e' _ _ hus).coincide_fields ha hb (merge_verify _ e e' hs' _ _) hms
      (.verify _ _ ⟨hb.child List.mem_cons_self, ha.child List.mem_cons_self, hs'⟩ htwins)
  | reachable e e' m vt ut vs vs' uvs uvs' h ih =>
    obtain ⟨us, ms, hus, hms, htwins⟩ := exists_twinFields ha hb ih
    have hvs : List.Forall₂ Twin (NodeSet.refreshAll vs vs') (NodeSet.addAll vs vs') :=
      twins_refreshAll (fun c hc => ha.child (by simp [children, hc]))
        fun c hc => hb.child (by simp [children, hc])
    have huvs : List.Forall₂ Twin
        (outstanding (NodeSet.refreshAll vs vs') (NodeSet.refreshAll uvs uvs'))
        (outstanding (NodeSet.addAll vs vs') (NodeSet.addAll uvs uvs')) :=
      twins_outstanding (fun c hc => ha.child (by simp [children, hc]))
        (fun c hc => hb.child (by simp [children, hc])) vs vs'
    exact (Updated.reachable e e' m m vt ut vs vs' uvs uvs' hus).coincide_fields ha hb
      (merge_reachable _ e e' m vt vt ut ut vs vs' uvs uvs' _ _) hms
      (.reachable _ _ m vt ut hvs huvs htwins)

/-- On aligned documents an update and a merge in which the last writer wins both succeed, and what
they make is equal. -/
theorem update_eqv_merge {a b : Node} (ha : a.WellFormed) (hb : b.WellFormed) (h : Aligned a b) :
    ∃ u m, a.update b = .ok u ∧ merge Resolver.lastWriterWins a b = .ok m ∧ u.eqv m = true := by
  obtain ⟨u, m, hu, hm, htwin⟩ := h.coincide ha hb
  exact ⟨u, m, hu, hm, htwin.eqv⟩

/-- The number at `n` and the note on the address `c`, one after the other or the other way
round. -/
def numberAndNote (e : Expiry) (number : Int) (note : String) (swapped : Bool) : Node :=
  let n := (ofString "n", leaf e (.int number))
  let c := (ofString "c", identity none (.cid "q") [(ofString "note", ofString note)])
  dict none "" (if swapped then [c, n] else [n, c])

theorem update_eqv_merge_numberAndNote :
    ∃ u m, (numberAndNote (some 5) 1 "old" false).update (numberAndNote (some 9) 2 "new" true) =
        .ok u ∧
      merge Resolver.lastWriterWins (numberAndNote (some 5) 1 "old" false)
        (numberAndNote (some 9) 2 "new" true) = .ok m ∧ u.eqv m = true := by
  have hnote : Aligned (identity none (.cid "q") [(ofString "note", ofString "old")])
      (identity none (.cid "q") [(ofString "note", ofString "new")]) := by
    refine .identity none none _ ?_
    simp only [List.forall_mem_cons, List.not_mem_nil, false_implies, implies_true, and_true]
    exact fun _ => .leaf none none rfl
  have hother : (ofString "n").eqv (ofString "c") = false ∧
      (ofString "c").eqv (ofString "n") = false := by decide
  refine update_eqv_merge (by decide) (by decide) (.dict none none "" ?_)
  simp only [if_true, Bool.false_eq_true, if_false, List.forall_mem_cons, hother, false_implies,
    List.not_mem_nil, implies_true, and_true, true_and]
  exact ⟨fun _ => .leaf _ _ rfl, fun _ => hnote⟩

end Node

end PeerRecords
