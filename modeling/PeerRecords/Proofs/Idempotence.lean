import PeerRecords.Proofs.Node.Timeless
import PeerRecords.Proofs.Uniqueness
import PeerRecords.Proofs.Update.Rows

/-
  Updating twice with the same documents.
  A document is absorbed if an update of itself by it changes nothing, and an update that follows
  one by it changes nothing more. Without expirations every document without repeated keys is
  absorbed, if what its reachability results leave unverified is not verified there (`isAbsorbed`).
  One stored key may be equal to several new ones, for the elements of a set inside a key may
  repeat. So the value there takes in a row of new values, and the second time the same row: the
  statement that goes through the recursion is about rows (`updateAll_again_of_lt`). Entries find
  their row again (`updateEntries_again`), members are there already (`refreshAll_of_forall_isIn`),
  and each candidate has its place, in the list of the unverified or among the addresses that are
  verified (`IsPlaced`).
-/

namespace PeerRecords

open Node

/-! ## Refreshing what is there -/

namespace NodeSet

theorem refresh_of_isIn {n : Node} (hn : n.expiry = none) {ns : List Node}
    (h : n.isIn ns = true) : refresh n ns = ns := by
  induction ns with
  | nil => cases h
  | cons m ms ih =>
    unfold refresh
    split
    · rw [hn, Expiry.combine_none_right, withExpiry_expiry]
    · rename_i hm
      have hms : n.isIn ms = true := by simpa [isIn, hm] using h
      rw [ih hms]

theorem refresh_of_not_isIn {n : Node} {ns : List Node} (h : n.isIn ns = false) :
    refresh n ns = ns ++ [n] := by
  induction ns with
  | nil => rfl
  | cons m ms ih =>
    have hm := isIn_eq_false.1 h
    rw [refresh, hm m List.mem_cons_self, ih (isIn_eq_false.2 fun x hx =>
      hm x (List.mem_cons_of_mem _ hx))]
    rfl

theorem isIn_refresh_self {n : Node} (hn : n.eqv n = true) (ns : List Node) :
    n.isIn (refresh n ns) = true := by
  induction ns with
  | nil => simp [refresh, isIn, hn]
  | cons m ms ih =>
    unfold refresh
    split
    · rename_i hm
      simp [isIn, hm]
    · rw [isIn, List.any_cons, ← isIn, ih, Bool.or_true]

/-- A refresh loses nothing. -/
theorem isIn_refresh {x : Node} (n : Node) {ns : List Node} (h : x.isIn ns = true) :
    x.isIn (refresh n ns) = true := by
  induction ns with
  | nil => cases h
  | cons m ms ih =>
    rw [isIn, List.any_cons, ← isIn, Bool.or_eq_true] at h
    unfold refresh
    split
    · rw [isIn, List.any_cons, eqv_withExpiry_left, ← isIn, Bool.or_eq_true]
      exact h
    · rw [isIn, List.any_cons, ← isIn, Bool.or_eq_true]
      exact h.imp id ih

theorem isIn_refreshAll {x : Node} {old : List Node} (new : List Node)
    (h : x.isIn old = true) : x.isIn (refreshAll old new) = true := by
  unfold refreshAll
  induction new generalizing old with
  | nil => exact h
  | cons n new ih => exact ih (isIn_refresh n h)

/-- What a refresh is given is there afterwards. -/
theorem isIn_refreshAll_of_mem {old new : List Node} (hnew : ∀ n ∈ new, n.eqv n = true) {n : Node}
    (hn : n ∈ new) : n.isIn (refreshAll old new) = true := by
  induction new generalizing old with
  | nil => exact absurd hn List.not_mem_nil
  | cons m new ih =>
    obtain rfl | hn := List.mem_cons.1 hn
    · exact isIn_refreshAll new (isIn_refresh_self (hnew n List.mem_cons_self) old)
    · exact ih (fun x hx => hnew x (List.mem_cons_of_mem _ hx)) hn

theorem refreshAll_of_forall_isIn {old new : List Node} (hnone : ∀ n ∈ new, n.expiry = none)
    (h : ∀ n ∈ new, n.isIn old = true) : refreshAll old new = old := by
  unfold refreshAll
  induction new with
  | nil => rfl
  | cons n new ih =>
    have hn := refresh_of_isIn (hnone n List.mem_cons_self) (h n List.mem_cons_self)
    rw [List.foldl_cons, hn]
    exact ih (fun x hx => hnone x (List.mem_cons_of_mem _ hx))
      fun x hx => h x (List.mem_cons_of_mem _ hx)

theorem refreshAll_self {ns : List Node} (hnone : ∀ n ∈ ns, n.expiry = none)
    (hns : ∀ n ∈ ns, n.eqv n = true) : refreshAll ns ns = ns :=
  refreshAll_of_forall_isIn hnone fun n hn => List.any_eq_true.2 ⟨n, hn, hns n hn⟩

/-- A refresh without expirations adds some of what it is given, all of it new. -/
theorem exists_refreshAll_eq_append (old : List Node) {new : List Node}
    (hnone : ∀ n ∈ new, n.expiry = none) :
    ∃ added, refreshAll old new = old ++ added ∧ ∀ n ∈ added, n ∈ new ∧ n.isIn old = false := by
  induction new generalizing old with
  | nil => exact ⟨[], (List.append_nil old).symm, by simp⟩
  | cons n new ih =>
    have hrest := fun x hx => hnone x (List.mem_cons_of_mem n hx)
    cases hn : n.isIn old with
    | true =>
      obtain ⟨added, heq, hadded⟩ := ih old hrest
      refine ⟨added, ?_, fun x hx => ⟨List.mem_cons_of_mem _ (hadded x hx).1, (hadded x hx).2⟩⟩
      rw [← heq, refreshAll, List.foldl_cons, refresh_of_isIn (hnone n List.mem_cons_self) hn]
      rfl
    | false =>
      obtain ⟨added, heq, hadded⟩ := ih (old ++ [n]) hrest
      refine ⟨n :: added, ?_, List.forall_mem_cons.2 ⟨⟨List.mem_cons_self, hn⟩, fun x hx => ?_⟩⟩
      · have hsplit : old ++ n :: added = old ++ [n] ++ added := List.append_cons old n added
        rw [refreshAll, List.foldl_cons, refresh_of_not_isIn hn, hsplit]
        exact heq
      · obtain ⟨hmem, hnot⟩ := hadded x hx
        refine ⟨List.mem_cons_of_mem _ hmem, isIn_eq_false.2 fun m hm => ?_⟩
        exact isIn_eq_false.1 hnot m (List.mem_append_left _ hm)

end NodeSet

/-! ## Entries -/

namespace Node

theorem forall_fst_foldIn {k v : Node} {step : Node → Except Error Node}
    {ps rs : List (Node × Node)} (hps : ∀ p ∈ ps, p.1.WellFormed) (hk : k.WellFormed)
    (h : Entries.foldIn k v step ps = .ok rs) : ∀ p ∈ rs, p.1.WellFormed := by
  have hkeys : ∀ x ∈ rs.map (·.1), x.WellFormed := by
    rw [Entries.map_fst_foldIn h]
    intro x hx
    obtain rfl | ⟨m, hm, e, rfl⟩ := NodeSet.mem_refresh hx
    · exact hk
    · obtain ⟨p, hp, rfl⟩ := List.mem_map.1 hm
      exact (hps p hp).withExpiry e
  exact List.forall_mem_map.1 hkeys

/-- An entry whose key is new is added. -/
theorem foldIn_of_forall_not {k v : Node} {step : Node → Except Error Node}
    {ps : List (Node × Node)} (h : ∀ p ∈ ps, p.1.eqv k = false) :
    Entries.foldIn k v step ps = .ok (ps ++ [(k, v)]) := by
  induction ps with
  | nil => rfl
  | cons p ps ih =>
    obtain ⟨hp, hps⟩ := List.forall_mem_cons.1 h
    rw [Entries.foldIn, if_neg (by simp [hp]), ih hps]
    rfl

/-- Entries with new and distinct keys are all added. -/
theorem updateEntries_eq_append {ps qs : List (Node × Node)}
    (h : areDistinct ((ps ++ qs).map (·.1)) = true) : updateEntries ps qs = .ok (ps ++ qs) := by
  induction qs generalizing ps with
  | nil => rw [updateEntries, List.append_nil]
  | cons q qs ih =>
    obtain ⟨k, v⟩ := q
    have hnew : ∀ p ∈ ps, p.1.eqv k = false := by
      rw [areDistinct_iff, List.map_append, List.pairwise_append] at h
      exact fun p hp => h.2.2 p.1 (List.mem_map_of_mem hp) k List.mem_cons_self
    have hsplit : ps ++ (k, v) :: qs = ps ++ [(k, v)] ++ qs := List.append_cons ps _ qs
    rw [updateEntries, foldIn_of_forall_not hnew]
    rw [hsplit] at h ⊢
    exact ih h

/-- Entries with distinct keys are all added where there are none. -/
theorem updateEntries_nil {qs : List (Node × Node)} (hkeys : areDistinct (qs.map (·.1)) = true) :
    updateEntries [] qs = .ok qs := updateEntries_eq_append hkeys

section

variable {ps qs rs : List (Node × Node)}

/-- Entries that were folded into nothing are found again, each where it went. -/
theorem updateEntries_nil_again (hkeys : ∀ q ∈ qs, q.1.expiry = none ∧ q.1.eqv q.1 = true)
    (hself : ∀ q ∈ qs, q.2.update q.2 = .ok q.2)
    (hrows : ∀ vs : List Node, vs ⊆ qs.map (·.2) → ∀ a r, updateAll a vs = .ok r →
      updateAll r vs = .ok r) (h : updateEntries [] qs = .ok rs) :
    updateEntries rs qs = .ok rs := by
  induction hlength : qs.length using Nat.strong_induction_on generalizing qs rs with
  | _ k ih =>
    cases qs with
    | nil =>
      cases h
      rfl
    | cons q qs =>
      have hnone : ∀ x ∈ q :: qs, x.1.expiry = none := fun x hx => (hkeys x hx).1
      have hrefl := (hkeys q List.mem_cons_self).2
      obtain ⟨hqself, hself⟩ := List.forall_mem_cons.1 hself
      have hmisses : misses q.1 qs ⊆ q :: qs :=
        List.Subset.trans (misses_subset _ _) (List.subset_cons_self _ _)
      -- The first entry is added, and takes in what else has its key.
      have h : updateEntries [q] qs = .ok rs := h
      obtain ⟨w, us, hw, hus, rfl⟩ := updateEntries_cons_eq_ok_iff.1 h
      have hrest : updateEntries us (misses q.1 qs) = .ok us := by
        refine ih _ ?_ (fun x hx => hkeys x (hmisses hx))
          (fun x hx => hself x (misses_subset _ _ hx))
          (fun vs hvs => hrows vs (List.Subset.trans hvs (List.map_subset _ hmisses))) hus rfl
        rw [← hlength]
        exact Nat.lt_succ_of_le (List.length_filter_le _ _)
      rw [foldl_refreshedBy_hits q.1 fun x hx => hnone x (List.mem_cons_of_mem _ hx)]
      refine updateEntries_cons_eq_ok_iff.2 ⟨w, us, ?_, ?_, ?_⟩
      · rw [hits_cons, if_pos hrefl, List.map_cons]
        refine hrows _ (List.cons_subset_cons _ (List.map_subset _ (hits_subset _ _))) q.2 w ?_
        rw [updateAll_cons, hqself]
        exact hw
      · rw [misses_cons, if_pos hrefl]
        exact hrest
      · exact congrArg (fun k => (k, w) :: us) (foldl_refreshedBy_hits q.1 hnone).symm

/-- Entries that were folded in are found again, each where it went. -/
theorem updateEntries_again (hkeys : ∀ q ∈ qs, q.1.expiry = none ∧ q.1.eqv q.1 = true)
    (hself : ∀ q ∈ qs, q.2.update q.2 = .ok q.2)
    (hrows : ∀ vs : List Node, vs ⊆ qs.map (·.2) → ∀ a r, updateAll a vs = .ok r →
      updateAll r vs = .ok r) (h : updateEntries ps qs = .ok rs) :
    updateEntries rs qs = .ok rs := by
  induction ps generalizing qs rs with
  | nil => exact updateEntries_nil_again hkeys hself hrows h
  | cons p ps ih =>
    have hkey := foldl_refreshedBy_hits p.1 fun q hq => (hkeys q hq).1
    have hmisses := misses_subset p.1 qs
    obtain ⟨w, us, hw, hus, rfl⟩ := updateEntries_cons_eq_ok_iff.1 h
    have hrest := ih (fun x hx => hkeys x (hmisses hx)) (fun x hx => hself x (hmisses hx))
      (fun vs hvs => hrows vs (List.Subset.trans hvs (List.map_subset _ hmisses))) hus
    rw [hkey]
    refine updateEntries_cons_eq_ok_iff.2 ⟨w, us, ?_, hrest, ?_⟩
    · exact hrows _ (List.map_subset _ (hits_subset p.1 qs)) p.2 w hw
    · exact congrArg (fun k => (k, w) :: us) hkey.symm

end

/-! ## Candidates that were settled -/

/-- None of the unverified candidates of a reachability result is verified there, and none is a
smart node. -/
def IsOutstanding : Node → Prop
  | .reachable _ _ _ vs _ uvs _ => outstanding vs uvs = uvs ∧ ∀ c ∈ uvs, c.isSmart = false
  | _ => True

theorem IsOutstanding.timeless {n : Node} (h : n.IsOutstanding) : n.timeless.IsOutstanding := by
  cases n with
  | reachable e mode vt vs ut uvs us =>
    refine ⟨?_, ?_⟩
    · rw [timelessAll_eq_map, timelessAll_eq_map, ← map_timeless_outstanding, h.1]
    · rw [timelessAll_eq_map]
      exact List.forall_mem_map.2 fun c hc => (isSmart_timeless c).trans (h.2 c hc)
  | _ => trivial

/-- Equal candidates give the same text, if neither is a smart node. -/
theorem candidateText?_congr {x y : Node} (h : x.eqv y = true) (hx : x.isSmart = false)
    (hy : y.isSmart = false) : x.candidateText? = y.candidateText? := by
  cases x with
  | leaf e v =>
    cases y with
    | leaf e' w =>
      have htext := string?_of_eqv h
      cases v <;> cases w <;> exact htext
    | _ => cases h
  | dict e t ps =>
    cases y with
    | dict e' t' qs => rfl
    | _ => cases h
  | set e t es =>
    cases y with
    | set e' t' fs => rfl
    | _ => cases h
  | predicate e t as nt ps =>
    cases y with
    | predicate e' t' bs nt' qs =>
      simp only [eqv, disassemble, disassembleAll_eq_map, same, Bool.and_eq_true, beq_iff_eq,
        pointwise_iff, List.forall₂_map_left_iff, List.forall₂_map_right_iff] at h
      obtain ⟨⟨⟨⟨rfl, hargs⟩, _⟩, _⟩, _⟩ := h
      by_cases ht : t = "multiaddress"
      · subst ht
        cases hargs with
        | nil => rfl
        | cons hab hrest =>
          cases hrest with
          | nil => exact string?_of_eqv hab
          | cons _ _ => rfl
      · simp [candidateText?, ht]
    | _ => first | cases h | cases hy
  | _ => cases hx

/-- Equal candidates give the same text, if the second is no smart node. -/
theorem candidateText?_of_eqv {x y : Node} (h : x.eqv y = true) (hy : y.isSmart = false)
    {s : String} (hx : x.candidateText? = some s) : y.candidateText? = some s := by
  cases hsmart : x.isSmart with
  | false => rw [← candidateText?_congr h hsmart hy, hx]
  | true =>
    cases x with
    | leaf | dict | set | predicate => cases hsmart
    | _ => simp [candidateText?] at hx

theorem isSettled_of_eqv {x y : Node} (h : x.eqv y = true) (hy : y.isSmart = false)
    {vs : List Node} (hx : x.isSettled vs = true) : y.isSettled vs = true := by
  have htext : y.candidateText? = x.candidateText? := by
    cases hs : x.candidateText? with
    | none =>
      rw [isSettled, normalAddress?, candidateAddr?, hs] at hx
      cases hx
    | some s => exact candidateText?_of_eqv h hy hs
  rw [isSettled, normalAddress?, candidateAddr?, htext]
  exact hx

theorem isSettled_refreshAll {c : Node} {vs : List Node} (new : List Node)
    (h : c.isSettled vs = true) : c.isSettled (NodeSet.refreshAll vs new) = true := by
  obtain ⟨s, hs, hin⟩ := (Option.any_eq_true _ _).1 h
  exact (Option.any_eq_true _ _).2 ⟨s, hs, NodeSet.isIn_refreshAll new hin⟩

/-- The candidate is listed in the node, or its address is verified there. -/
def IsPlaced (c n : Node) : Prop := c.isIn n.unverified = true ∨ c.isSettled n.members = true

section

variable {a b c r : Node} {bs : List Node}

theorem Updated.isPlaced_of_isIn (h : Updated a b r) (hc : c.isSmart = false)
    (hin : c.isIn (NodeSet.refreshAll a.unverified b.unverified) = true) : c.IsPlaced r := by
  obtain ⟨x, hx, hxc⟩ := List.any_eq_true.1 hin
  cases hsettled : x.isSettled r.members with
  | true => exact .inr (isSettled_of_eqv hxc hc hsettled)
  | false =>
    refine .inl ?_
    rw [h.unverified]
    exact List.any_eq_true.2 ⟨x, List.mem_filter.2 ⟨hx, by rw [hsettled]; rfl⟩, hxc⟩

theorem Updated.isPlaced (h : Updated a b r) (hc : c.isSmart = false) (hplaced : c.IsPlaced a) :
    c.IsPlaced r := by
  obtain hin | hsettled := hplaced
  · exact h.isPlaced_of_isIn hc (NodeSet.isIn_refreshAll _ hin)
  · refine .inr ?_
    rw [h.members]
    exact isSettled_refreshAll _ hsettled

/-- A candidate that has its place keeps one. -/
theorem IsPlaced.updateAll (hplaced : c.IsPlaced a) (hc : c.isSmart = false)
    (h : updateAll a bs = .ok r) : c.IsPlaced r := by
  induction bs generalizing a with
  | nil =>
    cases h
    exact hplaced
  | cons b bs ih =>
    rw [updateAll_cons] at h
    obtain ⟨v, hv, h⟩ := bind_eq_ok.1 h
    exact ih ((updated_of_update hv).isPlaced hc hplaced) h

/-- All candidates of a row of updates have their place after it. -/
theorem isPlaced_updateAll (hbs : ∀ b ∈ bs, ∀ c ∈ b.unverified, c.eqv c = true ∧ c.isSmart = false)
    (h : updateAll a bs = .ok r) : ∀ b ∈ bs, ∀ c ∈ b.unverified, c.IsPlaced r := by
  induction bs generalizing a with
  | nil => simp
  | cons b bs ih =>
    obtain ⟨hb, hbs⟩ := List.forall_mem_cons.1 hbs
    rw [updateAll_cons] at h
    obtain ⟨v, hv, h⟩ := bind_eq_ok.1 h
    refine List.forall_mem_cons.2 ⟨fun c hc => ?_, ih hbs h⟩
    have hin : c.isIn (NodeSet.refreshAll a.unverified b.unverified) = true :=
      NodeSet.isIn_refreshAll_of_mem (fun x hx => (hb x hx).1) hc
    exact ((updated_of_update hv).isPlaced_of_isIn (hb c hc).2 hin).updateAll (hb c hc).2 h

/-- After an update nothing is left unverified that is verified. -/
theorem Updated.outstanding_eq (h : Updated a b r) :
    outstanding r.members r.unverified = r.unverified := by
  rw [h.unverified]
  simp [outstanding, List.filter_filter]

theorem outstanding_updateAll (h : updateAll a (b :: bs) = .ok r) :
    outstanding r.members r.unverified = r.unverified := by
  induction bs generalizing a b with
  | nil =>
    obtain ⟨v, hv, h⟩ := bind_eq_ok.1 (updateAll_cons a b [] ▸ h)
    cases h
    exact (updated_of_update hv).outstanding_eq
  | cons c bs ih =>
    obtain ⟨v, hv, h⟩ := bind_eq_ok.1 (updateAll_cons a b (c :: bs) ▸ h)
    exact ih h

/-- Candidates that have their place change nothing when they come again. -/
theorem outstanding_refreshAll_of_isPlaced {n : Node} {cs : List Node}
    (hn : outstanding n.members n.unverified = n.unverified)
    (hcs : ∀ c ∈ cs, c.expiry = none ∧ c.IsPlaced n) :
    outstanding n.members (NodeSet.refreshAll n.unverified cs) = n.unverified := by
  obtain ⟨added, heq, hadded⟩ := NodeSet.exists_refreshAll_eq_append n.unverified
    fun c hc => (hcs c hc).1
  have hsettled : outstanding n.members added = [] := by
    refine List.filter_eq_nil_iff.2 fun y hy => ?_
    obtain ⟨hmem, hnot⟩ := hadded y hy
    have hplace := (hcs y hmem).2.resolve_left (by rw [hnot]; exact Bool.false_ne_true)
    rw [hplace]
    exact Bool.false_ne_true
  rw [heq, outstanding, List.filter_append, ← outstanding, ← outstanding, hsettled, hn,
    List.append_nil]

/-- A row of updates leaves the candidates as they are if those that come have their place. -/
theorem unverified_updateAll (ha : outstanding a.members a.unverified = a.unverified)
    (hmembers : ∀ b ∈ bs, NodeSet.refreshAll a.members b.members = a.members)
    (hbs : ∀ b ∈ bs, ∀ c ∈ b.unverified, c.expiry = none ∧ c.IsPlaced a)
    (h : updateAll a bs = .ok r) : r.unverified = a.unverified := by
  induction bs generalizing a with
  | nil =>
    cases h
    rfl
  | cons b bs ih =>
    obtain ⟨hb, hbs⟩ := List.forall_mem_cons.1 hbs
    obtain ⟨hbmembers, hmembers⟩ := List.forall_mem_cons.1 hmembers
    rw [updateAll_cons] at h
    obtain ⟨v, hv, h⟩ := bind_eq_ok.1 h
    have hv := updated_of_update hv
    have hsame : v.members = a.members := hv.members.trans hbmembers
    have hleft : v.unverified = a.unverified := by
      rw [hv.unverified, hsame]
      exact outstanding_refreshAll_of_isPlaced ha hb
    rw [ih (by rw [hsame, hleft, ha]) (by rwa [hsame]) ?_ h, hleft]
    unfold IsPlaced
    rwa [hsame, hleft]

end

/-! ## Documents that are absorbed -/

/-- An update by the document that follows one by it changes nothing more, nor does an update of
itself by it. -/
def IsAbsorbed (b : Node) : Prop :=
  b.update b = .ok b ∧
    ∀ a r : Node, a.update b = .ok r → r.update b = .ok r

/-- Updates leave the node itself as it is when it comes again: it has no expiration, its keys are
pairwise unequal, and nothing that it leaves unverified is verified there. -/
def IsSteady (n : Node) : Prop := n.expiry = none ∧ n.HasDistinctKeys ∧ n.IsOutstanding

section

variable {a b r : Node} {bs : List Node}

theorem eqv_self_of_steady (h : b.Everywhere IsSteady) : b.eqv b = true :=
  eqv_refl (h.mono fun _ hv => hv.2.1)

theorem IsOutstanding.unverified {n : Node} (h : n.IsOutstanding) :
    outstanding n.members n.unverified = n.unverified ∧ ∀ c ∈ n.unverified, c.isSmart = false := by
  cases n with
  | reachable e m vt vs ut uvs us => exact h
  | _ => exact ⟨rfl, by simp [Node.unverified]⟩

theorem members_of_steady (h : b.Everywhere IsSteady) :
    ∀ m ∈ b.members, m.expiry = none ∧ m.eqv m = true := by
  intro m hm
  have hsteady := h.child (members_subset_children b hm)
  exact ⟨hsteady.self.1, eqv_self_of_steady hsteady⟩

theorem unverified_of_steady (h : b.Everywhere IsSteady) :
    ∀ c ∈ b.unverified, c.expiry = none ∧ c.eqv c = true ∧ c.isSmart = false := by
  intro c hc
  have hsteady := h.child (unverified_subset_children b hc)
  exact ⟨hsteady.self.1, eqv_self_of_steady hsteady, h.self.2.2.unverified.2 c hc⟩

/-- A steady node is updated by itself as its entries are. -/
theorem update_self_of_fields (hb : b.Everywhere IsSteady)
    (hfields : updateEntries b.fields b.fields = .ok b.fields) : b.update b = .ok b := by
  obtain ⟨r, hr⟩ := (Fits.refl b).exists_update_iff.2 ⟨_, hfields⟩
  have hupdated := updated_of_update hr
  have hmembers : r.members = b.members := hupdated.members.trans (NodeSet.refreshAll_self
    (fun m hm => (members_of_steady hb m hm).1) fun m hm => (members_of_steady hb m hm).2)
  have hcandidates := unverified_of_steady hb
  have hself : NodeSet.refreshAll b.unverified b.unverified = b.unverified :=
    NodeSet.refreshAll_self (fun c hc => (hcandidates c hc).1) fun c hc => (hcandidates c hc).2.1
  rw [hr]
  refine congrArg Except.ok (eq_of_parts ?_ ?_ hmembers ?_ ?_)
  · rw [hupdated.head, ite_self]
  · rw [hupdated.expiry, hb.self.1, Expiry.combine_none_right]
  · rw [hupdated.unverified, hmembers, hself]
    exact hb.self.2.2.unverified.1
  · exact Except.ok.inj (hupdated.fields.symm.trans hfields)

/-- A row of steady nodes is taken in again as their entries are. -/
theorem updateAll_again_of_fields (hbs : ∀ b ∈ bs, b.Everywhere IsSteady)
    (hfields : updateEntries r.fields (bs.flatMap fields) = .ok r.fields)
    (h : updateAll a bs = .ok r) : updateAll r bs = .ok r := by
  cases bs with
  | nil => rfl
  | cons b bs =>
    obtain ⟨r', hr'⟩ := exists_updateAll (fits_updateAll h).2 hfields
    have hall : ∀ m ∈ (b :: bs).flatMap members, m.expiry = none ∧ m.eqv m = true := by
      intro m hm
      obtain ⟨x, hx, hm⟩ := List.mem_flatMap.1 hm
      exact members_of_steady (hbs x hx) m hm
    have hthere : ∀ m ∈ (b :: bs).flatMap members, m.isIn r.members = true := by
      intro m hm
      rw [members_updateAll h]
      exact NodeSet.isIn_refreshAll_of_mem (fun x hx => (hall x hx).2) hm
    have hmembers : ∀ x ∈ b :: bs, NodeSet.refreshAll r.members x.members = r.members :=
      fun x hx => NodeSet.refreshAll_of_forall_isIn
        (fun m hm => (hall m (List.mem_flatMap.2 ⟨x, hx, hm⟩)).1)
        fun m hm => hthere m (List.mem_flatMap.2 ⟨x, hx, hm⟩)
    have hplaced := isPlaced_updateAll
      (fun x hx c hc => (unverified_of_steady (hbs x hx) c hc).2) h
    rw [hr']
    refine congrArg Except.ok (eq_of_parts ?_ ?_ ?_ ?_ ?_)
    · rw [head_updateAll hr', keepsTag_updateAll h]
      split
      · rfl
      · rename_i hlast
        rw [head_updateAll h, if_neg hlast]
        rfl
    · exact expiry_updateAll (fun x hx => (hbs x hx).self.1) hr'
    · rw [members_updateAll hr']
      exact NodeSet.refreshAll_of_forall_isIn (fun m hm => (hall m hm).1) hthere
    · exact unverified_updateAll (outstanding_updateAll h) hmembers
        (fun x hx c hc => ⟨(unverified_of_steady (hbs x hx) c hc).1, hplaced x hx c hc⟩) hr'
    · exact Except.ok.inj ((fields_updateAll hr').symm.trans hfields)

/-- Updates by steady nodes, however large, leave as it is what they have made. -/
theorem updateAll_again_of_lt (k : Nat) :
    (∀ b : Node, sizeOf b < k → b.Everywhere IsSteady → b.update b = .ok b) ∧
    ∀ bs : List Node, (∀ b ∈ bs, sizeOf b < k ∧ b.Everywhere IsSteady) →
      ∀ a r, updateAll a bs = .ok r → updateAll r bs = .ok r := by
  induction k with
  | zero =>
    refine ⟨fun b hb => absurd hb (Nat.not_lt_zero _), fun bs hbs a r h => ?_⟩
    cases bs with
    | nil => rfl
    | cons b bs => exact absurd (hbs b List.mem_cons_self).1 (Nat.not_lt_zero _)
  | succ k ih =>
    obtain ⟨hself, hrows⟩ := ih
    have hvalue : ∀ {b : Node}, sizeOf b < k + 1 → b.Everywhere IsSteady → ∀ q ∈ b.fields,
        sizeOf q.2 < k ∧ q.2.Everywhere IsSteady := fun hsize hb q hq =>
      ⟨Nat.lt_of_lt_of_le (sizeOf_child (snd_mem_children hq)) (Nat.le_of_lt_succ hsize),
        hb.child (snd_mem_children hq)⟩
    have hentries : ∀ bs : List Node, (∀ b ∈ bs, sizeOf b < k + 1 ∧ b.Everywhere IsSteady) →
        ∀ ps rs, updateEntries ps (bs.flatMap fields) = .ok rs →
          updateEntries rs (bs.flatMap fields) = .ok rs := by
      intro bs hbs ps rs h
      have hfields : ∀ q ∈ bs.flatMap fields, ∃ b ∈ bs, q ∈ b.fields := fun q hq =>
        List.mem_flatMap.1 hq
      refine updateEntries_again (fun q hq => ?_) (fun q hq => ?_) (fun vs hvs a r => ?_) h
      · obtain ⟨b, hb, hq⟩ := hfields q hq
        have hkey := (hbs b hb).2.child (fst_mem_children hq)
        exact ⟨hkey.self.1, eqv_self_of_steady hkey⟩
      · obtain ⟨b, hb, hq⟩ := hfields q hq
        obtain ⟨hsize, hsteady⟩ := hvalue (hbs b hb).1 (hbs b hb).2 q hq
        exact hself q.2 hsize hsteady
      · refine hrows vs (fun v hv => ?_) a r
        obtain ⟨q, hq, rfl⟩ := List.mem_map.1 (hvs hv)
        obtain ⟨b, hb, hq⟩ := hfields q hq
        exact hvalue (hbs b hb).1 (hbs b hb).2 q hq
    refine ⟨fun b hsize hb => ?_, fun bs hbs a r h => ?_⟩
    · have hnew : updateEntries [] b.fields = .ok b.fields :=
        updateEntries_nil (keys_eq_map b ▸ hb.self.2.1)
      have hsingle : [b].flatMap fields = b.fields := List.flatMap_singleton _ _
      refine update_self_of_fields hb ?_
      have hagain := hentries [b] (List.forall_mem_singleton.2 ⟨hsize, hb⟩) [] b.fields
      rw [hsingle] at hagain
      exact hagain hnew
    · refine updateAll_again_of_fields (fun b hb => (hbs b hb).2) ?_ h
      exact hentries bs hbs _ _ (fields_updateAll h)

end

/-- Without expirations a document without repeated keys is absorbed, if its reachability results
are settled. -/
theorem isAbsorbed {b : Node} (hkeys : b.Everywhere HasDistinctKeys)
    (hnone : b.Everywhere fun n => n.expiry = none) (hout : b.Everywhere IsOutstanding) :
    b.IsAbsorbed := by
  have hb : b.Everywhere IsSteady := fun v hv => ⟨hnone v hv, hkeys v hv, hout v hv⟩
  obtain ⟨hself, hrows⟩ := updateAll_again_of_lt (sizeOf b + 1)
  refine ⟨hself b (Nat.lt_succ_self _) hb, fun a r h => ?_⟩
  rw [← updateAll_singleton] at h ⊢
  exact hrows [b] (List.forall_mem_singleton.2 ⟨Nat.lt_succ_self _, hb⟩) a r h

end Node

end PeerRecords
