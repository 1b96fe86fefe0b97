import PeerRecords.Proofs.Update

/-
  Updates in a row, taken apart.
  `updateAll a bs` updates `a` by the documents of a list, one after the other. What comes out is
  read off part by part: the elements, arguments and verified addresses of a node are its `members`,
  and what is left without them, the candidates and the entries is its `head`. Members and entries
  of all documents are taken in in a row, the head is that of the first document or of the last
  (`members_updateAll`, `fields_updateAll`, `head_updateAll`), and the parts determine the node
  (`eq_of_parts`).
  Entries are taken apart from the left, key by key: the first one takes in, in a row, the values
  whose keys it is equal to, and the others take in the rest (`updateEntries_cons_eq_ok_iff`). This
  asks nothing of keys; in particular one stored key may be equal to several new ones. What holds
  throughout the result goes by the rows that come together at the documents themselves and at their
  values, at any depth (`Gathers`, `everywhere_updateAll_iff`).
-/

namespace PeerRecords

open Node

namespace Node

/-- The document after a row of updates. -/
def updateAll (a : Node) (bs : List Node) : Except Error Node := bs.foldlM update a

theorem updateAll_cons (a b : Node) (bs : List Node) :
    updateAll a (b :: bs) = a.update b >>= fun r => updateAll r bs := List.foldlM_cons

theorem updateAll_singleton (a b : Node) : updateAll a [b] = a.update b := by
  rw [updateAll_cons]
  cases a.update b <;> rfl

/-! ## Entries by key -/

/-- The new entries whose keys a stored key is equal to. -/
def hits (k : Node) (qs : List (Node × Node)) : List (Node × Node) := qs.filter fun q => k.eqv q.1

/-- The new entries that a stored key leaves to others. -/
def misses (k : Node) (qs : List (Node × Node)) : List (Node × Node) :=
  qs.filter fun q => !k.eqv q.1

@[simp] theorem hits_refreshedBy (k l : Node) (qs : List (Node × Node)) :
    hits (k.refreshedBy l) qs = hits k qs := by
  simp only [hits, eqv_refreshedBy_left]

@[simp] theorem misses_refreshedBy (k l : Node) (qs : List (Node × Node)) :
    misses (k.refreshedBy l) qs = misses k qs := by
  simp only [misses, eqv_refreshedBy_left]

theorem hits_cons (k : Node) (q : Node × Node) (qs : List (Node × Node)) :
    hits k (q :: qs) = if k.eqv q.1 then q :: hits k qs else hits k qs := List.filter_cons

theorem hits_subset (k : Node) (qs : List (Node × Node)) : hits k qs ⊆ qs :=
  List.filter_sublist.subset

theorem misses_subset (k : Node) (qs : List (Node × Node)) : misses k qs ⊆ qs :=
  List.filter_sublist.subset

theorem misses_cons (k : Node) (q : Node × Node) (qs : List (Node × Node)) :
    misses k (q :: qs) = if k.eqv q.1 then misses k qs else q :: misses k qs := by
  rw [misses, List.filter_cons]
  cases k.eqv q.1 <;> rfl

/-- The first entry takes in the values that its key is equal to the keys of, the others the
rest. -/
theorem updateEntries_cons_eq_ok_iff {p : Node × Node} {ps qs rs : List (Node × Node)} :
    updateEntries (p :: ps) qs = .ok rs ↔
      ∃ w us, updateAll p.2 ((hits p.1 qs).map (·.2)) = .ok w ∧
        updateEntries ps (misses p.1 qs) = .ok us ∧
        rs = (((hits p.1 qs).map (·.1)).foldl refreshedBy p.1, w) :: us := by
  induction qs generalizing p ps with
  | nil =>
    constructor
    · intro h
      cases h
      exact ⟨p.2, ps, rfl, rfl, rfl⟩
    · rintro ⟨w, us, hw, hus, rfl⟩
      cases hw
      cases hus
      rfl
  | cons q qs ih =>
    rw [updateEntries_cons, Entries.foldIn_cons, hits_cons, misses_cons]
    cases hq : p.1.eqv q.1 with
    | true =>
      simp only [if_true, List.map_cons, List.foldl_cons, updateAll_cons]
      constructor
      · intro h
        obtain ⟨vs, hvs, h⟩ := bind_eq_ok.1 h
        obtain ⟨v, hv, hvs⟩ := bind_eq_ok.1 hvs
        cases hvs
        obtain ⟨w, us, hw, hus, rfl⟩ := ih.1 h
        simp only [hits_refreshedBy, misses_refreshedBy] at hw hus ⊢
        exact ⟨w, us, bind_eq_ok.2 ⟨v, hv, hw⟩, hus, rfl⟩
      · rintro ⟨w, us, hw, hus, rfl⟩
        obtain ⟨v, hv, hw⟩ := bind_eq_ok.1 hw
        rw [hv]
        refine ih.2 ⟨w, us, ?_, ?_, ?_⟩
        · rwa [hits_refreshedBy]
        · rwa [misses_refreshedBy]
        · rw [hits_refreshedBy]
    | false =>
      simp only [Bool.false_eq_true, if_false]
      constructor
      · intro h
        obtain ⟨vs, hvs, h⟩ := bind_eq_ok.1 h
        obtain ⟨ts, hts, hvs⟩ := bind_eq_ok.1 hvs
        cases hvs
        obtain ⟨w, us, hw, hus, rfl⟩ := ih.1 h
        exact ⟨w, us, hw, bind_eq_ok.2 ⟨ts, hts, hus⟩, rfl⟩
      · rintro ⟨w, us, hw, hus, rfl⟩
        obtain ⟨ts, hts, hus⟩ := bind_eq_ok.1 hus
        rw [hts]
        exact ih.2 ⟨w, us, hw, hus, rfl⟩

theorem foldl_refreshedBy_of_none (k : Node) {ls : List Node} (h : ∀ l ∈ ls, l.expiry = none) :
    ls.foldl refreshedBy k = k := by
  induction ls with
  | nil => rfl
  | cons l ls ih =>
    obtain ⟨hl, hls⟩ := List.forall_mem_cons.1 h
    rw [List.foldl_cons, refreshedBy, hl, Expiry.combine_none_right, withExpiry_expiry]
    exact ih hls

/-- Keys without expirations leave the key that they are equal to as it is. -/
theorem foldl_refreshedBy_hits (k : Node) {qs : List (Node × Node)}
    (h : ∀ q ∈ qs, q.1.expiry = none) : ((hits k qs).map (·.1)).foldl refreshedBy k = k :=
  foldl_refreshedBy_of_none k (List.forall_mem_map.2 fun q hq => h q (hits_subset k qs hq))

theorem updateEntries_append (ps qs qs' : List (Node × Node)) :
    updateEntries ps (qs ++ qs') = updateEntries ps qs >>= fun us => updateEntries us qs' := by
  induction qs generalizing ps with
  | nil => rfl
  | cons q qs ih =>
    rw [List.cons_append, updateEntries_cons, updateEntries_cons, bind_assoc]
    exact congrArg _ (funext fun us => ih us)

/-! ## Rows of values -/

/-- Among the entries that come of folding `qs` into `ps` there is one that had the value `v` and
has taken in the values `vs`. -/
inductive TakesIn (v : Node) (vs : List Node) : List (Node × Node) → List (Node × Node) → Prop where
  | here {p ps qs} (hv : v = p.2) (hvs : vs = (hits p.1 qs).map (·.2)) : TakesIn v vs (p :: ps) qs
  | later {p ps qs} (h : TakesIn v vs ps (misses p.1 qs)) : TakesIn v vs (p :: ps) qs
  | added {q qs} (h : TakesIn v vs [q] qs) : TakesIn v vs [] (q :: qs)

theorem takesIn_cons_iff {v : Node} {vs : List Node} {p : Node × Node}
    {ps qs : List (Node × Node)} :
    TakesIn v vs (p :: ps) qs ↔
      (v = p.2 ∧ vs = (hits p.1 qs).map (·.2)) ∨ TakesIn v vs ps (misses p.1 qs) := by
  constructor
  · intro h
    cases h with
    | here hv hvs => exact .inl ⟨hv, hvs⟩
    | later h => exact .inr h
  · rintro (⟨hv, hvs⟩ | h)
    · exact .here hv hvs
    · exact .later h

theorem takesIn_nil_cons_iff {v : Node} {vs : List Node} {q : Node × Node}
    {qs : List (Node × Node)} : TakesIn v vs [] (q :: qs) ↔ TakesIn v vs [q] qs :=
  ⟨fun h => by cases h; assumption, .added⟩

/-- A row consists of values of the entries. -/
theorem TakesIn.mem {v : Node} {vs : List Node} {ps qs : List (Node × Node)}
    (h : TakesIn v vs ps qs) : ∀ w ∈ v :: vs, w ∈ ps.map (·.2) ∨ w ∈ qs.map (·.2) := by
  induction h with
  | here hv hvs =>
    subst hv hvs
    refine List.forall_mem_cons.2 ⟨.inl List.mem_cons_self, fun w hw => .inr ?_⟩
    exact List.map_subset _ (hits_subset _ _) hw
  | later h ih =>
    exact fun w hw => (ih w hw).imp (List.mem_cons_of_mem _)
      fun hw => List.map_subset _ (misses_subset _ _) hw
  | added h ih =>
    refine fun w hw => .inr ?_
    obtain hw | hw := ih w hw
    · exact List.mem_cons.2 (.inl (List.mem_singleton.1 hw))
    · exact List.mem_cons_of_mem _ hw

section

variable {P : Node → Prop} {p : Node × Node} {ps qs rs : List (Node × Node)}

/-- One step of what follows: the first entry has its row, the others have theirs. -/
theorem forall_values_cons_iff
    (hrest : ∀ us, updateEntries ps (misses p.1 qs) = .ok us → ((∀ u ∈ us, P u.2) ↔
      ∀ v vs, TakesIn v vs ps (misses p.1 qs) → ∃ w, updateAll v vs = .ok w ∧ P w))
    (h : updateEntries (p :: ps) qs = .ok rs) :
    (∀ r ∈ rs, P r.2) ↔
      ∀ v vs, TakesIn v vs (p :: ps) qs → ∃ w, updateAll v vs = .ok w ∧ P w := by
  obtain ⟨w, us, hw, hus, rfl⟩ := updateEntries_cons_eq_ok_iff.1 h
  simp only [takesIn_cons_iff, or_imp, forall_and, and_imp, forall_eq_apply_imp_iff, forall_eq]
  rw [List.forall_mem_cons, hrest us hus]
  refine and_congr_left fun _ => ⟨fun hP => ⟨w, hw, hP⟩, ?_⟩
  rintro ⟨w', hw', hP⟩
  rw [hw] at hw'
  cases hw'
  exact hP

/-- A property holds of all values of an update just if it holds of what each row makes. -/
theorem forall_values_updateEntries_iff (h : updateEntries ps qs = .ok rs) :
    (∀ r ∈ rs, P r.2) ↔ ∀ v vs, TakesIn v vs ps qs → ∃ w, updateAll v vs = .ok w ∧ P w := by
  induction ps generalizing qs rs with
  | cons p ps ih => exact forall_values_cons_iff (fun us hus => ih hus) h
  | nil =>
    induction hlength : qs.length using Nat.strong_induction_on generalizing qs rs with
    | _ k ih =>
      cases qs with
      | nil =>
        cases h
        exact iff_of_true (by simp) fun v vs h => by cases h
      | cons q qs =>
        have h : updateEntries [q] qs = .ok rs := h
        simp only [takesIn_nil_cons_iff]
        refine forall_values_cons_iff (fun us hus => ih _ ?_ hus rfl) h
        rw [← hlength]
        exact Nat.lt_succ_of_le (List.length_filter_le _ _)

end

/-! ## Parts -/

/-- The elements of a set, the arguments of a predicate, the verified addresses of a check. -/
def members : Node → List Node
  | .set _ _ es => es
  | .predicate _ _ as _ _ => as
  | .reachable _ _ _ vs _ _ _ => vs
  | _ => []

/-- The unverified candidates of a reachability result. -/
def unverified : Node → List Node
  | .reachable _ _ _ _ _ uvs _ => uvs
  | _ => []

/-- A node without its expiration, members, candidates and entries. -/
def head : Node → Node
  | .leaf _ v => .leaf none v
  | .dict _ t _ => .dict none t []
  | .set _ t _ => .set none t []
  | .predicate _ t _ nt _ => .predicate none t [] nt []
  | .identity _ i _ => .identity none i []
  | .claim _ a b s g _ => .claim none a b s g []
  | .verify _ s _ => .verify none s []
  | .reachable _ m vt _ ut _ _ => .reachable none m vt [] ut [] []

/-- A node with a head, an expiration, members, candidates and entries. -/
def withParts (e : Expiry) (ms us : List Node) (fs : List (Node × Node)) : Node → Node
  | .leaf _ v => .leaf e v
  | .dict _ t _ => .dict e t fs
  | .set _ t _ => .set e t ms
  | .predicate _ t _ nt _ => .predicate e t ms nt fs
  | .identity _ i _ => .identity e i fs
  | .claim _ a b s g _ => .claim e a b s g fs
  | .verify _ s _ => .verify e s fs
  | .reachable _ m vt _ ut _ _ => .reachable e m vt ms ut us fs

theorem withParts_head (n : Node) :
    n.head.withParts n.expiry n.members n.unverified n.fields = n := by
  cases n <;> rfl

theorem eq_of_parts {m n : Node} (hhead : m.head = n.head) (hexpiry : m.expiry = n.expiry)
    (hmembers : m.members = n.members) (hunverified : m.unverified = n.unverified)
    (hfields : m.fields = n.fields) : m = n := by
  rw [← withParts_head m, ← withParts_head n, hhead, hexpiry, hmembers, hunverified, hfields]

theorem members_subset_children (n : Node) : n.members ⊆ n.children := by
  cases n with
  | set e t es => exact List.Subset.refl _
  | predicate e t as nt ps => exact List.subset_append_left _ _
  | reachable e m vt vs ut uvs us =>
    exact List.Subset.trans (List.subset_append_left _ _) (List.subset_append_left _ _)
  | _ => exact List.nil_subset _

theorem unverified_subset_children (n : Node) : n.unverified ⊆ n.children := by
  cases n with
  | reachable e m vt vs ut uvs us =>
    exact List.Subset.trans (List.subset_append_right _ _) (List.subset_append_left _ _)
  | _ => exact List.nil_subset _

/-- The children of a node but for the values: the members, the candidates, the keys and the
statement of a claim. -/
def inner (n : Node) : List Node := n.members ++ n.unverified ++ n.keys ++ n.head.children

theorem forall_inner_iff {P : Node → Prop} {n : Node} :
    (∀ c ∈ n.inner, P c) ↔ (∀ c ∈ n.members, P c) ∧ (∀ c ∈ n.unverified, P c) ∧
      (∀ p ∈ n.fields, P p.1) ∧ ∀ c ∈ n.head.children, P c := by
  rw [inner, keys_eq_map]
  simp only [List.forall_mem_append, List.forall_mem_map, and_assoc]

theorem forall_children_iff {P : Node → Prop} {n : Node} :
    (∀ c ∈ n.children, P c) ↔ (∀ c ∈ n.inner, P c) ∧ ∀ p ∈ n.fields, P p.2 := by
  rw [forall_inner_iff]
  cases n <;> simp only [children, members, unverified, fields, head, forall_entryNodes,
    List.forall_mem_append, List.forall_mem_cons, forall_and] <;> simp <;> tauto

/-- Whether an update keeps the tag of the older node. -/
def keepsTag : Node → Bool
  | .dict _ _ _ | .predicate _ _ _ _ _ => true
  | _ => false

namespace Updated

variable {a b r : Node}

theorem expiry (h : Updated a b r) : r.expiry = Expiry.combine a.expiry b.expiry := by
  cases h <;> rfl

theorem members (h : Updated a b r) : r.members = NodeSet.refreshAll a.members b.members := by
  cases h <;> rfl

theorem unverified (h : Updated a b r) :
    r.unverified = outstanding r.members (NodeSet.refreshAll a.unverified b.unverified) := by
  cases h <;> rfl

theorem keepsTag (h : Updated a b r) : r.keepsTag = a.keepsTag := by
  cases h <;> rfl

theorem head (h : Updated a b r) : r.head = if a.keepsTag then a.head else b.head := by
  cases h with
  | identity e e' hi h =>
    obtain ⟨_, rfl⟩ := Identity.fits_of_update hi
    rfl
  | _ => rfl

/-- What holds of the children of both sides but for the values, whatever their expirations, holds
of those of the updated node. -/
theorem forall_inner {Q : Node → Prop} (hQ : ∀ e n, Q n → Q (n.withExpiry e)) (h : Updated a b r)
    (ha : ∀ c ∈ a.inner, Q c) (hb : ∀ c ∈ b.inner, Q c) : ∀ c ∈ r.inner, Q c := by
  obtain ⟨hamembers, haunverified, hakeys, hahead⟩ := forall_inner_iff.1 ha
  obtain ⟨hbmembers, hbunverified, hbkeys, hbhead⟩ := forall_inner_iff.1 hb
  refine forall_inner_iff.2 ⟨?_, ?_, forall_fst_updateEntries hQ h.fields hakeys hbkeys, ?_⟩
  · rw [h.members]
    exact NodeSet.forall_mem_refreshAll hQ hamembers hbmembers
  · rw [h.unverified]
    exact fun c hc => NodeSet.forall_mem_refreshAll hQ haunverified hbunverified c
      (List.mem_filter.1 hc).1
  · rw [h.head]
    cases a.keepsTag with
    | true => exact hahead
    | false => exact hbhead

end Updated

theorem Fits.refl (n : Node) : Fits n n := by
  cases n with
  | leaf e v => exact .leaf e e rfl
  | identity e i us => exact .identity e e (by cases i <;> constructor) us us
  | _ => constructor

/-! ## The parts after a row of updates -/

section

variable {a r : Node} {bs : List Node}

theorem fits_updateAll (h : updateAll a bs = .ok r) : a.Fits r ∧ ∀ b ∈ bs, r.Fits b := by
  induction bs generalizing a with
  | nil =>
    cases h
    exact ⟨.refl _, by simp⟩
  | cons b bs ih =>
    rw [updateAll_cons] at h
    obtain ⟨v, hv, h⟩ := bind_eq_ok.1 h
    obtain ⟨hab, hav⟩ := (updated_of_update hv).fits
    obtain ⟨hvr, hbs⟩ := ih h
    have har := hav.trans hvr
    exact ⟨har, List.forall_mem_cons.2 ⟨har.symm.trans hab, hbs⟩⟩

theorem keepsTag_updateAll (h : updateAll a bs = .ok r) : r.keepsTag = a.keepsTag := by
  induction bs generalizing a with
  | nil =>
    cases h
    rfl
  | cons b bs ih =>
    rw [updateAll_cons] at h
    obtain ⟨v, hv, h⟩ := bind_eq_ok.1 h
    rw [ih h, (updated_of_update hv).keepsTag]

theorem expiry_updateAll (hbs : ∀ b ∈ bs, b.expiry = none) (h : updateAll a bs = .ok r) :
    r.expiry = a.expiry := by
  induction bs generalizing a with
  | nil =>
    cases h
    rfl
  | cons b bs ih =>
    obtain ⟨hb, hbs⟩ := List.forall_mem_cons.1 hbs
    rw [updateAll_cons] at h
    obtain ⟨v, hv, h⟩ := bind_eq_ok.1 h
    rw [ih hbs h, (updated_of_update hv).expiry, hb, Expiry.combine_none_right]

theorem members_updateAll (h : updateAll a bs = .ok r) :
    r.members = NodeSet.refreshAll a.members (bs.flatMap members) := by
  induction bs generalizing a with
  | nil =>
    cases h
    rfl
  | cons b bs ih =>
    rw [updateAll_cons] at h
    obtain ⟨v, hv, h⟩ := bind_eq_ok.1 h
    rw [ih h, (updated_of_update hv).members, List.flatMap_cons, NodeSet.refreshAll,
      NodeSet.refreshAll, NodeSet.refreshAll, List.foldl_append]

theorem fields_updateAll (h : updateAll a bs = .ok r) :
    updateEntries a.fields (bs.flatMap fields) = .ok r.fields := by
  induction bs generalizing a with
  | nil =>
    cases h
    rfl
  | cons b bs ih =>
    rw [updateAll_cons] at h
    obtain ⟨v, hv, h⟩ := bind_eq_ok.1 h
    rw [List.flatMap_cons, updateEntries_append, (updated_of_update hv).fields]
    exact ih h

/-- Some nodes keep the tag of the first document; the head of the others is that of the last. -/
theorem head_updateAll (h : updateAll a bs = .ok r) :
    r.head = if a.keepsTag then a.head else (bs.map head).getLastD a.head := by
  induction bs generalizing a with
  | nil =>
    cases h
    exact (ite_self _).symm
  | cons b bs ih =>
    rw [updateAll_cons] at h
    obtain ⟨v, hv, h⟩ := bind_eq_ok.1 h
    have hv := updated_of_update hv
    rw [ih h, hv.keepsTag, hv.head, List.map_cons, List.getLastD_cons]
    cases a.keepsTag <;> rfl

/-- A row of documents that fit can be taken in if their entries can. -/
theorem exists_updateAll {fs : List (Node × Node)} (hbs : ∀ b ∈ bs, a.Fits b)
    (h : updateEntries a.fields (bs.flatMap fields) = .ok fs) : ∃ r, updateAll a bs = .ok r := by
  induction bs generalizing a with
  | nil => exact ⟨a, rfl⟩
  | cons b bs ih =>
    obtain ⟨hb, hbs⟩ := List.forall_mem_cons.1 hbs
    rw [List.flatMap_cons, updateEntries_append] at h
    obtain ⟨us, hus, h⟩ := bind_eq_ok.1 h
    obtain ⟨v, hv⟩ := hb.exists_update_iff.2 ⟨us, hus⟩
    have hupdated := updated_of_update hv
    have hfields : us = v.fields := Except.ok.inj (hus.symm.trans hupdated.fields)
    obtain ⟨r, hr⟩ := ih (fun c hc => hupdated.fits.2.symm.trans (hbs c hc)) (hfields ▸ h)
    exact ⟨r, by rw [updateAll_cons, hv]; exact hr⟩

theorem forall_inner_updateAll {Q : Node → Prop} (hQ : ∀ e n, Q n → Q (n.withExpiry e))
    (hall : ∀ n ∈ a :: bs, ∀ c ∈ n.inner, Q c) (h : updateAll a bs = .ok r) :
    ∀ c ∈ r.inner, Q c := by
  induction bs generalizing a with
  | nil =>
    cases h
    exact hall _ List.mem_cons_self
  | cons b bs ih =>
    rw [updateAll_cons] at h
    obtain ⟨v, hv, h⟩ := bind_eq_ok.1 h
    obtain ⟨ha, hall⟩ := List.forall_mem_cons.1 hall
    obtain ⟨hb, hbs⟩ := List.forall_mem_cons.1 hall
    exact ih (List.forall_mem_cons.2 ⟨(updated_of_update hv).forall_inner hQ ha hb, hbs⟩) h

end

/-! ## What holds throughout -/

/-- In a row of updates of `a` by `bs` the node `x` takes in the nodes `ys`: these are the documents
themselves, or the values of a row of entries, or come together within such values. -/
inductive Gathers (x : Node) (ys : List Node) : Node → List Node → Prop where
  | self : Gathers x ys x ys
  | value {a v : Node} {bs vs : List Node} (hrow : TakesIn v vs a.fields (bs.flatMap fields))
      (h : Gathers x ys v vs) : Gathers x ys a bs

theorem forall_gathers_iff {S : Node → List Node → Prop} {a : Node} {bs : List Node} :
    (∀ x ys, Gathers x ys a bs → S x ys) ↔ S a bs ∧
      ∀ v vs, TakesIn v vs a.fields (bs.flatMap fields) → ∀ x ys, Gathers x ys v vs → S x ys := by
  constructor
  · intro h
    exact ⟨h a bs .self, fun v vs hrow x ys hxs => h x ys (.value hrow hxs)⟩
  · rintro ⟨hself, hvalues⟩ x ys hxs
    cases hxs with
    | self => exact hself
    | value hrow hxs => exact hvalues _ _ hrow x ys hxs

/-- The values of a row are children of the documents. -/
theorem TakesIn.mem_children {a v : Node} {bs vs : List Node}
    (h : TakesIn v vs a.fields (bs.flatMap fields)) :
    ∀ w ∈ v :: vs, ∃ n ∈ a :: bs, w ∈ n.children := by
  intro w hw
  obtain hw | hw := h.mem w hw
  · obtain ⟨p, hp, rfl⟩ := List.mem_map.1 hw
    exact ⟨a, List.mem_cons_self, snd_mem_children hp⟩
  · obtain ⟨q, hq, rfl⟩ := List.mem_map.1 hw
    obtain ⟨b, hb, hq⟩ := List.mem_flatMap.1 hq
    exact ⟨b, List.mem_cons_of_mem _ hb, snd_mem_children hq⟩

/-- What holds throughout the documents holds of all nodes that come together. -/
theorem Gathers.of_everywhere {P : Node → Prop} {x a : Node} {ys bs : List Node}
    (h : Gathers x ys a bs) (hall : ∀ n ∈ a :: bs, n.Everywhere P) : ∀ n ∈ x :: ys, P n := by
  induction h with
  | self => exact fun n hn => (hall n hn).self
  | value hrow h ih =>
    refine ih fun w hw => ?_
    obtain ⟨n, hn, hw⟩ := hrow.mem_children w hw
    exact (hall n hn).child hw

/-- A property of single nodes may hold throughout the documents of a row, whatever the expirations,
and of what a row makes just if something holds of the row. Then it holds throughout what comes of
the documents just if that is so wherever nodes come together. -/
theorem everywhere_updateAll_iff {P : Node → Prop} {S : Node → List Node → Prop}
    (hP : ∀ e n, P n → P (n.withExpiry e))
    (hS : ∀ {a r : Node} {bs : List Node}, updateAll a bs = .ok r → (P r ↔ S a bs))
    {a r : Node} {bs : List Node} (hall : ∀ n ∈ a :: bs, n.Everywhere P)
    (h : updateAll a bs = .ok r) : r.Everywhere P ↔ ∀ x ys, Gathers x ys a bs → S x ys := by
  obtain ⟨k, hk⟩ : ∃ k, ∀ n ∈ a :: bs, sizeOf n < k :=
    ⟨sizeOf (a :: bs), fun n hn => List.sizeOf_lt_of_mem hn⟩
  induction k generalizing a bs r with
  | zero => exact absurd (hk a List.mem_cons_self) (Nat.not_lt_zero _)
  | succ k ih =>
    have hinner : ∀ c ∈ r.inner, c.Everywhere P :=
      forall_inner_updateAll (fun e n hn => hn.withExpiry hP e)
        (fun n hn => (forall_children_iff.1 fun c hc => (hall n hn).child hc).1) h
    have hfields := fields_updateAll h
    rw [everywhere_iff, forall_children_iff, hS h, forall_gathers_iff,
      forall_values_updateEntries_iff hfields, and_iff_right hinner]
    refine and_congr_right fun _ => forall₂_congr fun v vs => forall_congr' fun hrow => ?_
    have hmade := forall_values_updateEntries_iff (P := fun _ => True) hfields
    obtain ⟨w, hw, _⟩ := hmade.1 (fun _ _ => trivial) v vs hrow
    have hvalues : ∀ n ∈ v :: vs, sizeOf n < k ∧ n.Everywhere P := by
      intro n hn
      obtain ⟨m, hm, hn⟩ := hrow.mem_children n hn
      exact ⟨Nat.lt_of_lt_of_le (sizeOf_child hn) (Nat.le_of_lt_succ (hk m hm)),
        (hall m hm).child hn⟩
    rw [← ih (fun n hn => (hvalues n hn).2) hw fun n hn => (hvalues n hn).1]
    constructor
    · rintro ⟨w', hw', hall⟩
      rw [hw] at hw'
      cases hw'
      exact hall
    · exact fun hall => ⟨w, hw, hall⟩

end Node

end PeerRecords
