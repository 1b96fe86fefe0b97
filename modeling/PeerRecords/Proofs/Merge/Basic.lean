import PeerRecords.Proofs.Candidates
import PeerRecords.Proofs.Merge.WellFormed

/-
  The join of two documents.
  Two nodes meet (`Meets`) when their heads are the same, and only nodes that meet are joined
  (`meets_of_join`); an equation for each kind says how (`join_dict` and the like). A join keeps the
  head of its left side, so what meets it meets that side (`Joined.meets_left`), and it is
  well-formed if both sides are (`WellFormed.join`).
-/

namespace PeerRecords

open Node

theorem Expiry.combine_self (e : Expiry) : combine e e = e := by
  cases e <;> simp [combine]

namespace Node

/-! ## Nodes that meet -/

/-- The two nodes can be joined, but for what their entries say. -/
inductive Meets : Node → Node → Prop where
  | leaf (e e' : Expiry) {v v' : Leaf} (h : v.alike v' = true) : Meets (.leaf e v) (.leaf e' v')
  | dict (e e' : Expiry) (t : String) (ps qs : List (Node × Node)) :
    Meets (.dict e t ps) (.dict e' t qs)
  | set (e e' : Expiry) (t : String) (es fs : List Node) : Meets (.set e t es) (.set e' t fs)
  | predicate (e e' : Expiry) (t nt nt' : String) (as bs : List Node)
      (ps qs : List (Node × Node)) : Meets (.predicate e t as nt ps) (.predicate e' t bs nt' qs)
  | identity (e e' : Expiry) (i : Identity) (us us' : List (Node × Node)) :
    Meets (.identity e i us) (.identity e' i us')
  | claim (e e' : Expiry) (a : Assurance) (p : PeerId) {s s' : Node} (h : s'.eqv s = true)
      (g : List UInt8) (us us' : List (Node × Node)) :
    Meets (.claim e a p s g us) (.claim e' a p s' g us')
  | verify (e e' : Expiry) {s s' : Node} (h : s'.eqv s = true) (us us' : List (Node × Node)) :
    Meets (.verify e s us) (.verify e' s' us')
  | reachable (e e' : Expiry) (m : ProbeMode) (vt vt' ut ut' : String)
      (vs vs' uvs uvs' : List Node) (us us' : List (Node × Node)) :
    Meets (.reachable e m vt vs ut uvs us) (.reachable e' m vt' vs' ut' uvs' us')

theorem Meets.symm {a b : Node} (ha : a.WellFormed) (hb : b.WellFormed) (h : Meets a b) :
    Meets b a := by
  cases h with
  | leaf e e' h => exact .leaf e' e (leaf_alike_comm _ _ ▸ h)
  | claim e e' a p h g us us' =>
    exact .claim e' e a p (eqv_symm (hb.child List.mem_cons_self) (ha.child List.mem_cons_self) h)
      g us' us
  | verify e e' h us us' =>
    exact .verify e' e (eqv_symm (hb.child List.mem_cons_self) (ha.child List.mem_cons_self) h)
      us' us
  | _ => constructor

theorem Meets.trans {a b c : Node} (ha : a.WellFormed) (hb : b.WellFormed) (hc : c.WellFormed)
    (hab : Meets a b) (hbc : Meets b c) : Meets a c := by
  cases hab with
  | leaf e e' h =>
    cases hbc with
    | leaf _ e'' h' => exact .leaf e e'' (leaf_alike_trans h h')
  | claim e e' a p h g us us' =>
    cases hbc with
    | claim _ e'' _ _ h' _ _ us'' =>
      exact .claim e e'' a p (eqv_trans (hc.child List.mem_cons_self) (hb.child List.mem_cons_self)
        (ha.child List.mem_cons_self) h' h) g us us''
  | verify e e' h us us' =>
    cases hbc with
    | verify _ e'' h' _ us'' =>
      exact .verify e e'' (eqv_trans (hc.child List.mem_cons_self) (hb.child List.mem_cons_self)
        (ha.child List.mem_cons_self) h' h) us us''
  | _ => cases hbc; constructor

theorem not_resolved_reject {e e' : Expiry} {a b r : Node} :
    resolved e e' (Resolver.reject a b) ≠ .ok r := by
  intro h
  cases h

theorem meets_of_join {a b r : Node} (h : a.join b = .ok r) : Meets a b := by
  unfold join merge at h
  split at h
  · split at h
    · rename_i halike
      exact .leaf _ _ halike
    · cases h
  · split at h
    · subst_vars
      exact .dict _ _ _ _ _
    · cases h
  · split at h
    · subst_vars
      exact .set _ _ _ _ _
    · cases h
  · split at h
    · subst_vars
      exact .predicate _ _ _ _ _ _ _ _ _
    · cases h
  · split at h
    · split at h
      · subst_vars
        exact .identity _ _ _ _ _
      · exact absurd h not_resolved_reject
    · cases h
  · split at h
    · split at h
      · rename_i hkind hsame
        obtain ⟨rfl, hs, rfl⟩ := hsame
        subst hkind
        exact .claim _ _ _ _ hs _ _ _
      · exact absurd h not_resolved_reject
    · cases h
  · split at h
    · rename_i hs
      exact .verify _ _ hs _ _
    · exact absurd h not_resolved_reject
  · split at h
    · subst_vars
      exact .reachable _ _ _ _ _ _ _ _ _ _ _ _ _
    · exact absurd h not_resolved_reject
  · cases h

/-! ## How nodes that meet are merged -/

section

variable (resolve : Resolver (Except Error)) (e e' : Expiry)

theorem merge_leaf {v v' : Leaf} (h : v.alike v' = true) :
    merge resolve (leaf e v) (leaf e' v') = .ok (leaf (Expiry.combine e e') v) := by
  rw [merge, if_pos h]
  rfl

theorem merge_dict (t : String) (ps qs : List (Node × Node)) :
    merge resolve (dict e t ps) (dict e' t qs) =
      mergedEntries resolve ps qs >>= fun rs => .ok (dict (Expiry.combine e e') t rs) := by
  rw [merge, if_pos rfl, mergedEntries, bind_assoc]
  rfl

theorem merge_set (t : String) (es fs : List Node) : merge resolve (set e t es) (set e' t fs) =
    .ok (set (Expiry.combine e e') t (NodeSet.addAll es fs)) := by
  rw [merge, if_pos rfl]
  rfl

theorem merge_predicate (t nt nt' : String) (as bs : List Node) (ps qs : List (Node × Node)) :
    merge resolve (predicate e t as nt ps) (predicate e' t bs nt' qs) =
      mergedEntries resolve ps qs >>= fun rs =>
        .ok (predicate (Expiry.combine e e') t (NodeSet.addAll as bs) nt rs) := by
  rw [merge, if_pos rfl, mergedEntries, bind_assoc]
  rfl

theorem merge_identity (i : Identity) (us us' : List (Node × Node)) :
    merge resolve (identity e i us) (identity e' i us') =
      mergedEntries resolve us us' >>= fun rs => .ok (identity (Expiry.combine e e') i rs) := by
  rw [merge, if_pos rfl, if_pos rfl, mergedEntries, bind_assoc]
  rfl

theorem merge_claim (a : Assurance) (p : PeerId) {s s' : Node} (h : s'.eqv s = true)
    (g : List UInt8) (us us' : List (Node × Node)) :
    merge resolve (claim e a p s g us) (claim e' a p s' g us') =
      mergedEntries resolve us us' >>= fun rs => .ok (claim (Expiry.combine e e') a p s g rs) := by
  rw [merge, if_pos rfl, if_pos ⟨rfl, h, rfl⟩, mergedEntries, bind_assoc]
  rfl

theorem merge_verify {s s' : Node} (h : s'.eqv s = true) (us us' : List (Node × Node)) :
    merge resolve (verify e s us) (verify e' s' us') =
      mergedEntries resolve us us' >>= fun rs => .ok (verify (Expiry.combine e e') s rs) := by
  rw [merge, if_pos h, mergedEntries, bind_assoc]
  rfl

theorem merge_reachable (m : ProbeMode) (vt vt' ut ut' : String) (vs vs' uvs uvs' : List Node)
    (us us' : List (Node × Node)) :
    merge resolve (reachable e m vt vs ut uvs us) (reachable e' m vt' vs' ut' uvs' us') =
      mergedEntries resolve us us' >>= fun rs => .ok (reachable (Expiry.combine e e') m vt
        (NodeSet.addAll vs vs') ut
        (outstanding (NodeSet.addAll vs vs') (NodeSet.addAll uvs uvs')) rs) := by
  rw [merge, if_pos rfl, mergedEntries, bind_assoc]
  rfl

theorem join_leaf {v v' : Leaf} (h : v.alike v' = true) :
    (leaf e v).join (leaf e' v') = .ok (leaf (Expiry.combine e e') v) := merge_leaf _ e e' h

theorem join_dict (t : String) (ps qs : List (Node × Node)) :
    (dict e t ps).join (dict e' t qs) =
      joinEntries ps qs >>= fun rs => .ok (dict (Expiry.combine e e') t rs) :=
  merge_dict _ e e' t ps qs

theorem join_set (t : String) (es fs : List Node) :
    (set e t es).join (set e' t fs) = .ok (set (Expiry.combine e e') t (NodeSet.addAll es fs)) :=
  merge_set _ e e' t es fs

theorem join_predicate (t nt nt' : String) (as bs : List Node) (ps qs : List (Node × Node)) :
    (predicate e t as nt ps).join (predicate e' t bs nt' qs) = joinEntries ps qs >>= fun rs =>
      .ok (predicate (Expiry.combine e e') t (NodeSet.addAll as bs) nt rs) :=
  merge_predicate _ e e' t nt nt' as bs ps qs

theorem join_identity (i : Identity) (us us' : List (Node × Node)) :
    (identity e i us).join (identity e' i us') =
      joinEntries us us' >>= fun rs => .ok (identity (Expiry.combine e e') i rs) :=
  merge_identity _ e e' i us us'

theorem join_claim (a : Assurance) (p : PeerId) {s s' : Node} (h : s'.eqv s = true)
    (g : List UInt8) (us us' : List (Node × Node)) :
    (claim e a p s g us).join (claim e' a p s' g us') =
      joinEntries us us' >>= fun rs => .ok (claim (Expiry.combine e e') a p s g rs) :=
  merge_claim _ e e' a p h g us us'

theorem join_verify {s s' : Node} (h : s'.eqv s = true) (us us' : List (Node × Node)) :
    (verify e s us).join (verify e' s' us') =
      joinEntries us us' >>= fun rs => .ok (verify (Expiry.combine e e') s rs) :=
  merge_verify _ e e' h us us'

theorem join_reachable (m : ProbeMode) (vt vt' ut ut' : String) (vs vs' uvs uvs' : List Node)
    (us us' : List (Node × Node)) :
    (reachable e m vt vs ut uvs us).join (reachable e' m vt' vs' ut' uvs' us') =
      joinEntries us us' >>= fun rs => .ok (reachable (Expiry.combine e e') m vt
        (NodeSet.addAll vs vs') ut
        (outstanding (NodeSet.addAll vs vs') (NodeSet.addAll uvs uvs')) rs) :=
  merge_reachable _ e e' m vt vt' ut ut' vs vs' uvs uvs' us us'

end

/-! ## What a join is made of -/

/-- The result of a join. -/
inductive Joined : Node → Node → Node → Prop where
  | leaf (e e' : Expiry) {v v' : Leaf} (h : v.alike v' = true) :
    Joined (.leaf e v) (.leaf e' v') (.leaf (Expiry.combine e e') v)
  | dict (e e' : Expiry) (t : String) {ps qs rs : List (Node × Node)}
      (h : joinEntries ps qs = .ok rs) :
    Joined (.dict e t ps) (.dict e' t qs) (.dict (Expiry.combine e e') t rs)
  | set (e e' : Expiry) (t : String) (es fs : List Node) :
    Joined (.set e t es) (.set e' t fs) (.set (Expiry.combine e e') t (NodeSet.addAll es fs))
  | predicate (e e' : Expiry) (t nt nt' : String) (as bs : List Node)
      {ps qs rs : List (Node × Node)} (h : joinEntries ps qs = .ok rs) :
    Joined (.predicate e t as nt ps) (.predicate e' t bs nt' qs)
      (.predicate (Expiry.combine e e') t (NodeSet.addAll as bs) nt rs)
  | identity (e e' : Expiry) (i : Identity) {us us' rs : List (Node × Node)}
      (h : joinEntries us us' = .ok rs) :
    Joined (.identity e i us) (.identity e' i us') (.identity (Expiry.combine e e') i rs)
  | claim (e e' : Expiry) (a : Assurance) (p : PeerId) {s s' : Node} (hs : s'.eqv s = true)
      (g : List UInt8) {us us' rs : List (Node × Node)} (h : joinEntries us us' = .ok rs) :
    Joined (.claim e a p s g us) (.claim e' a p s' g us')
      (.claim (Expiry.combine e e') a p s g rs)
  | verify (e e' : Expiry) {s s' : Node} (hs : s'.eqv s = true) {us us' rs : List (Node × Node)}
      (h : joinEntries us us' = .ok rs) :
    Joined (.verify e s us) (.verify e' s' us') (.verify (Expiry.combine e e') s rs)
  | reachable (e e' : Expiry) (m : ProbeMode) (vt vt' ut ut' : String)
      (vs vs' uvs uvs' : List Node) {us us' rs : List (Node × Node)}
      (h : joinEntries us us' = .ok rs) :
    Joined (.reachable e m vt vs ut uvs us) (.reachable e' m vt' vs' ut' uvs' us')
      (.reachable (Expiry.combine e e') m vt (NodeSet.addAll vs vs') ut
        (outstanding (NodeSet.addAll vs vs') (NodeSet.addAll uvs uvs')) rs)

theorem joined_iff {a b r : Node} : a.join b = .ok r ↔ Joined a b r := by
  constructor
  · intro h
    cases meets_of_join h with
    | leaf e e' hv =>
      rw [join_leaf e e' hv] at h
      cases h
      exact .leaf e e' hv
    | dict e e' t ps qs =>
      rw [join_dict] at h
      obtain ⟨rs, hrs, h⟩ := bind_eq_ok.1 h
      cases h
      exact .dict e e' t hrs
    | set e e' t es fs =>
      rw [join_set] at h
      cases h
      exact .set e e' t es fs
    | predicate e e' t nt nt' as bs ps qs =>
      rw [join_predicate] at h
      obtain ⟨rs, hrs, h⟩ := bind_eq_ok.1 h
      cases h
      exact .predicate e e' t nt nt' as bs hrs
    | identity e e' i us us' =>
      rw [join_identity] at h
      obtain ⟨rs, hrs, h⟩ := bind_eq_ok.1 h
      cases h
      exact .identity e e' i hrs
    | claim e e' a p hs g us us' =>
      rw [join_claim e e' a p hs] at h
      obtain ⟨rs, hrs, h⟩ := bind_eq_ok.1 h
      cases h
      exact .claim e e' a p hs g hrs
    | verify e e' hs us us' =>
      rw [join_verify e e' hs] at h
      obtain ⟨rs, hrs, h⟩ := bind_eq_ok.1 h
      cases h
      exact .verify e e' hs hrs
    | reachable e e' m vt vt' ut ut' vs vs' uvs uvs' us us' =>
      rw [join_reachable] at h
      obtain ⟨rs, hrs, h⟩ := bind_eq_ok.1 h
      cases h
      exact .reachable e e' m vt vt' ut ut' vs vs' uvs uvs' hrs
  · intro h
    cases h with
    | leaf e e' hv => exact join_leaf e e' hv
    | set e e' t es fs => exact join_set e e' t es fs
    | dict e e' t h => rw [join_dict, h, ok_bind]
    | predicate e e' t nt nt' as bs h => rw [join_predicate, h, ok_bind]
    | identity e e' i h => rw [join_identity, h, ok_bind]
    | claim e e' a p hs g h => rw [join_claim e e' a p hs, h, ok_bind]
    | verify e e' hs h => rw [join_verify e e' hs, h, ok_bind]
    | reachable e e' m vt vt' ut ut' vs vs' uvs uvs' h => rw [join_reachable, h, ok_bind]

theorem values_eq_map (n : Node) : n.values = n.fields.map (·.2) := by cases n <;> rfl

theorem WellFormed.keyed {n : Node} (h : n.WellFormed) : Entries.Keyed n.fields :=
  h.fields.toKeyed

namespace Joined

variable {a b r : Node}

/-- The entries of a join are joined, whatever node they are of. -/
theorem fields (h : Joined a b r) : joinEntries a.fields b.fields = .ok r.fields := by
  cases h with
  | leaf e e' hv => rfl
  | set e e' t es fs => rfl
  | dict e e' t h => exact h
  | predicate e e' t nt nt' as bs h => exact h
  | identity e e' i h => exact h
  | claim e e' a p hs g h => exact h
  | verify e e' hs h => exact h
  | reachable e e' m vt vt' ut ut' vs vs' uvs uvs' h => exact h

/-- What meets a join meets its left side. -/
theorem meets_left {c : Node} (h : Joined a b r) (hc : Meets r c) : Meets a c := by
  cases h with
  | leaf e e' hv =>
    cases hc with
    | leaf _ e'' hc => exact .leaf e e'' hc
  | claim e e' a p hs g h =>
    cases hc with
    | claim _ e'' _ _ hc _ _ us'' => exact .claim e e'' a p hc g _ us''
  | verify e e' hs h =>
    cases hc with
    | verify _ e'' hc _ us'' => exact .verify e e'' hc _ us''
  | _ => cases hc; constructor

/-- What a join is met by meets its left side. -/
theorem meets_right {c : Node} (h : Joined a b r) (hc : Meets c r) : Meets c a := by
  cases h with
  | leaf e e' hv =>
    cases hc with
    | leaf e'' _ hc => exact .leaf e'' e hc
  | claim e e' a p hs g h =>
    cases hc with
    | claim e'' _ _ _ hc _ us'' _ => exact .claim e'' e a p hc g us'' _
  | verify e e' hs h =>
    cases hc with
    | verify e'' _ hc us'' _ => exact .verify e'' e hc us'' _
  | _ => cases hc; constructor

end Joined

/-- A join of well-formed documents is well-formed. -/
theorem WellFormed.join {a b r : Node} (ha : a.WellFormed) (hb : b.WellFormed)
    (h : a.join b = .ok r) : r.WellFormed := by
  have hreject : ∀ x y : Node, x.WellFormed → y.WellFormed →
      SatisfiesM WellFormed (Resolver.reject x y) := by
    intro x y _ _
    rw [SatisfiesM_Except_eq]
    intro n hn
    cases hn
  exact SatisfiesM_Except_eq.1 (satisfiesM_merge hreject ha hb) r h

end Node

end PeerRecords
