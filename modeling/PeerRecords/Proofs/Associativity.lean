import PeerRecords.Proofs.Candidates

/-
  Three updates in a row.
  `agree_update_update` puts them together from the left or from the right, for documents whose
  equal candidates stand for the same address: by induction on the third, which is where both ways
  end, with one case for each pair of nodes that fit together. Without candidates that holds of all
  documents (`agree_dropUnverified`). `update_assoc` says both.
-/

namespace PeerRecords

open Node

namespace Node

/-! ## Documents -/

/-- The document is well-formed and its candidates belong to a class. -/
def Admits (C : Node → Prop) (n : Node) : Prop :=
  n.WellFormed ∧ ∀ x : Node, x.IsCandidate n → C x

variable {C : Node → Prop}

theorem Admits.update (hC : IsAddressed C) {a b r : Node} (ha : a.Admits C) (hb : b.Admits C)
    (h : a.update b = .ok r) : r.Admits C :=
  ⟨ha.1.update hb.1 h, forall_candidate_of_update hC.withExpiry ha.2 hb.2 h⟩

theorem Admits.entries {n : Node} (h : n.Admits C) {ps : List (Node × Node)}
    (hkeys : ps.map (·.1) = n.keys) (hvalues : ps.map (·.2) = n.values) :
    ∀ p ∈ ps, p.1.WellFormed ∧ p.2.Admits C := by
  intro p hp
  have hk : p.1 ∈ n.keys := hkeys ▸ List.mem_map_of_mem hp
  have hv : p.2 ∈ n.values := hvalues ▸ List.mem_map_of_mem hp
  refine ⟨h.1.of_mem_keys hk, h.1.child (mem_children_of_mem_values hv), ?_⟩
  exact fun x hx => h.2 x (.value hv hx)

theorem agree_update_update (hC : IsAddressed C) {a b c : Node} (ha : a.Admits C)
    (hb : b.Admits C) (hc : c.Admits C) :
    Agree (a.update b >>= fun r => r.update c) (b.update c >>= fun r => a.update r) := by
  induction c using induct_children generalizing a b with
  | step c ih =>
    have hentries : ∀ {ps qs rs : List (Node × Node)}, ps.map (·.1) = a.keys →
        ps.map (·.2) = a.values → qs.map (·.1) = b.keys → qs.map (·.2) = b.values →
        rs.map (·.1) = c.keys → rs.map (·.2) = c.values →
        Agree (updateEntries ps qs >>= fun us => updateEntries us rs)
          (updateEntries qs rs >>= fun us => updateEntries ps us) := by
      intro ps qs rs hpk hpv hqk hqv hrk hrv
      have hrs := hc.entries hrk hrv
      refine updateEntries_assoc (Admits.update hC) (ha.entries hpk hpv) (hb.entries hqk hqv) ?_
        hrs ?_
      · rw [hqk]
        exact hb.1.distinctKeys.self
      · intro r hr a b ha hb
        have hmem : r.2 ∈ c.values := hrv ▸ List.mem_map_of_mem hr
        exact ih r.2 (mem_children_of_mem_values hmem) ha hb (hrs r hr).2
    refine Agree.of_ok fun v hv => ?_
    obtain ⟨hab, hbc⟩ := fits_of_update_update hv
    clear hv v
    cases hab with
    | leaf e₁ e₂ h₁₂ =>
      cases hbc with
      | leaf _ e₃ h₂₃ =>
        refine .of_eq ?_
        rw [(Updated.leaf e₁ e₂ h₁₂).update_eq_ok, (Updated.leaf e₂ e₃ h₂₃).update_eq_ok, ok_bind,
          ok_bind, (Updated.leaf _ e₃ h₂₃).update_eq_ok,
          (Updated.leaf e₁ _ (h₁₂.trans h₂₃)).update_eq_ok, Expiry.combine_assoc]
    | dict e₁ e₂ t₁ t₂ ps qs =>
      cases hbc with
      | dict _ e₃ _ t₃ _ rs =>
        have h := (hentries rfl rfl rfl rfl rfl rfl).bind_left
          fun xs => .ok (dict (Expiry.combine e₁ (Expiry.combine e₂ e₃)) t₁ xs)
        simpa only [update_dict, bind_assoc, ok_bind, Expiry.combine_assoc] using h
    | set e₁ e₂ t es₁ es₂ =>
      cases hbc with
      | set _ e₃ _ _ es₃ =>
        have helements : NodeSet.refreshAll (NodeSet.refreshAll es₁ es₂) es₃ =
            NodeSet.refreshAll es₁ (NodeSet.refreshAll es₂ es₃) :=
          NodeSet.refreshAll_assoc (fun n hn => ha.1.child hn) (fun n hn => hb.1.child hn)
            fun n hn => hc.1.child hn
        refine .of_eq ?_
        rw [(Updated.set e₁ e₂ t es₁ es₂).update_eq_ok, (Updated.set e₂ e₃ t es₂ es₃).update_eq_ok,
          ok_bind, ok_bind, (Updated.set _ e₃ t _ es₃).update_eq_ok,
          (Updated.set e₁ _ t es₁ _).update_eq_ok, Expiry.combine_assoc, helements]
    | predicate e₁ e₂ t₁ t₂ nt₁ nt₂ as₁ as₂ ps qs =>
      cases hbc with
      | predicate _ e₃ _ t₃ _ nt₃ _ as₃ _ rs =>
        have hargs := NodeSet.refreshAll_assoc
          (fun n hn => ha.1.child (List.mem_append_left _ hn))
          (fun n hn => hb.1.child (List.mem_append_left _ hn))
          (fun n hn => hc.1.child (List.mem_append_left _ hn))
        have h := (hentries rfl rfl rfl rfl rfl rfl).bind_left fun xs =>
          .ok (predicate (Expiry.combine e₁ (Expiry.combine e₂ e₃)) t₁
            (NodeSet.refreshAll as₁ (NodeSet.refreshAll as₂ as₃)) nt₁ xs)
        simpa only [update_predicate, bind_assoc, ok_bind, Expiry.combine_assoc, hargs] using h
    | identity e₁ e₂ h₁₂ us₁ us₂ =>
      cases hbc with
      | @identity _ e₃ _ i₃ h₂₃ _ us₃ =>
        have h := (hentries rfl rfl rfl rfl rfl rfl).bind_left fun xs =>
          .ok (identity (Expiry.combine e₁ (Expiry.combine e₂ e₃)) i₃ xs)
        simpa only [update_identity _ _ h₁₂, update_identity _ _ h₂₃,
          update_identity _ _ (h₁₂.trans h₂₃), bind_assoc, ok_bind, Expiry.combine_assoc] using h
    | claim e₁ e₂ x p₁ p₂ s₁ s₂ g₁ g₂ us₁ us₂ =>
      cases hbc with
      | claim _ e₃ _ _ p₃ _ s₃ _ g₃ _ us₃ =>
        have h := (hentries rfl rfl rfl rfl rfl rfl).bind_left fun xs =>
          .ok (claim (Expiry.combine e₁ (Expiry.combine e₂ e₃)) x p₃ s₃ g₃ xs)
        simpa only [update_claim, bind_assoc, ok_bind, Expiry.combine_assoc] using h
    | verify e₁ e₂ s₁ s₂ us₁ us₂ =>
      cases hbc with
      | verify _ e₃ _ s₃ _ us₃ =>
        have h := (hentries rfl rfl rfl rfl rfl rfl).bind_left fun xs =>
          .ok (verify (Expiry.combine e₁ (Expiry.combine e₂ e₃)) s₃ xs)
        simpa only [update_verify, bind_assoc, ok_bind, Expiry.combine_assoc] using h
    | reachable e₁ e₂ m₁ m₂ vt ut vs₁ vs₂ uvs₁ uvs₂ us₁ us₂ =>
      cases hbc with
      | reachable _ e₃ _ m₃ _ _ _ vs₃ _ uvs₃ _ us₃ =>
        have hverified : ∀ {e m us} {vs uvs : List Node},
            (reachable e m vt vs ut uvs us).Admits C → ∀ n ∈ vs, n.WellFormed := fun hn x hx =>
          hn.1.child (List.mem_append_left _ (List.mem_append_left _ hx))
        have hunverified : ∀ {e m us} {vs uvs : List Node},
            (reachable e m vt vs ut uvs us).Admits C → ∀ n ∈ uvs, n.WellFormed ∧ C n :=
          fun hn x hx => ⟨hn.1.child (List.mem_append_left _ (List.mem_append_right _ hx)),
            hn.2 x (.unverified hx)⟩
        have hsettled := outstanding_assoc hC (hverified ha) (hverified hb) (hverified hc)
          (hunverified ha) (hunverified hb) (hunverified hc)
        rw [NodeSet.refreshAll_assoc (hverified ha) (hverified hb) (hverified hc)] at hsettled
        have h := (hentries rfl rfl rfl rfl rfl rfl).bind_left fun xs =>
          .ok (reachable (Expiry.combine e₁ (Expiry.combine e₂ e₃)) m₃ vt
            (NodeSet.refreshAll vs₁ (NodeSet.refreshAll vs₂ vs₃)) ut
            (outstanding (NodeSet.refreshAll vs₁ (NodeSet.refreshAll vs₂ vs₃))
              (NodeSet.refreshAll uvs₁ (outstanding (NodeSet.refreshAll vs₂ vs₃)
                (NodeSet.refreshAll uvs₂ uvs₃)))) xs)
        simpa only [update_reachable, bind_assoc, ok_bind, Expiry.combine_assoc, hsettled,
          NodeSet.refreshAll_assoc (hverified ha) (hverified hb) (hverified hc)] using h

theorem agree_dropUnverified {a b c : Node} (ha : a.WellFormed) (hb : b.WellFormed)
    (hc : c.WellFormed) :
    Agree ((a.update b >>= fun r => r.update c).map dropUnverified)
      ((b.update c >>= fun r => a.update r).map dropUnverified) := by
  have hnone : IsAddressed fun _ => False :=
    ⟨fun _ _ => False.elim, fun _ _ => False.elim⟩
  have hadmits : ∀ {n : Node}, n.WellFormed → n.dropUnverified.Admits fun _ => False :=
    fun hn => ⟨hn.dropUnverified, fun x hx => not_isCandidate_dropUnverified x _ hx⟩
  have hleft : (a.update b >>= fun r => r.update c).map dropUnverified =
      a.dropUnverified.update b.dropUnverified >>= fun r => r.update c.dropUnverified := by
    rw [← map_dropUnverified_update]
    cases a.update b with
    | error e => rfl
    | ok r => exact map_dropUnverified_update r c
  have hright : (b.update c >>= fun r => a.update r).map dropUnverified =
      b.dropUnverified.update c.dropUnverified >>= fun r => a.dropUnverified.update r := by
    rw [← map_dropUnverified_update]
    cases b.update c with
    | error e => rfl
    | ok r => exact map_dropUnverified_update a r
  rw [hleft, hright]
  exact agree_update_update hnone (hadmits ha) (hadmits hb) (hadmits hc)

/-- Updates in a row may be put together from the left or from the right: both succeed with
documents that are the same but for the unverified candidates, or both fail. If equal candidates of
the three documents stand for the same address, both succeed with the same document, expirations
included, or both fail; and so they do if no candidate is a smart node. -/
theorem update_assoc {a b c : Node} (ha : a.WellFormed) (hb : b.WellFormed) (hc : c.WellFormed) :
    Agree ((a.update b >>= fun r => r.update c).map dropUnverified)
        ((b.update c >>= fun r => a.update r).map dropUnverified) ∧
      ((∀ x y : Node, x.IsCandidate a ∨ x.IsCandidate b ∨ x.IsCandidate c →
          y.IsCandidate a ∨ y.IsCandidate b ∨ y.IsCandidate c →
          x.eqv y = true → x.normalAddress? = y.normalAddress?) →
        Agree (a.update b >>= fun r => r.update c) (b.update c >>= fun r => a.update r)) ∧
      ((∀ x : Node, x.IsCandidate a ∨ x.IsCandidate b ∨ x.IsCandidate c → x.isSmart = false) →
        Agree (a.update b >>= fun r => r.update c) (b.update c >>= fun r => a.update r)) := by
  refine ⟨agree_dropUnverified ha hb hc, fun hsame => ?_, fun hplain => ?_⟩
  · have hC : IsAddressed fun x => ∃ y : Node,
        (y.IsCandidate a ∨ y.IsCandidate b ∨ y.IsCandidate c) ∧ ∃ e, x = y.withExpiry e := by
      constructor
      · rintro e _ ⟨y, hy, d, rfl⟩
        exact ⟨y, hy, e, withExpiry_withExpiry d e y⟩
      · rintro _ _ ⟨x, hx, d, rfl⟩ ⟨y, hy, e, rfl⟩ hxy
        rw [eqv_withExpiry_left, eqv_withExpiry_right] at hxy
        rw [normalAddress?_withExpiry, normalAddress?_withExpiry]
        exact hsame x y hx hy hxy
    refine agree_update_update hC ⟨ha, fun x hx => ?_⟩ ⟨hb, fun x hx => ?_⟩ ⟨hc, fun x hx => ?_⟩
    · exact ⟨x, .inl hx, x.expiry, (withExpiry_expiry x).symm⟩
    · exact ⟨x, .inr (.inl hx), x.expiry, (withExpiry_expiry x).symm⟩
    · exact ⟨x, .inr (.inr hx), x.expiry, (withExpiry_expiry x).symm⟩
  · exact agree_update_update isAddressed_of_not_smart ⟨ha, fun x hx => hplain x (.inl hx)⟩
      ⟨hb, fun x hx => hplain x (.inr (.inl hx))⟩ ⟨hc, fun x hx => hplain x (.inr (.inr hx))⟩

/-- A reachability result with its verified and its unverified candidates. -/
def found (verified candidates : List Node) : Node :=
  .reachable none .dial "" verified "" candidates []

/-- An address as a text. -/
def localText : Node := ofString "/ip4/10.0.0.1/tcp/1"

/-- The address as a plain predicate. -/
def localPlain : Node := .predicate none "multiaddress" [localText] "" []

/-- The address as a smart node, which is equal to the plain predicate. -/
def localSmart : Node :=
  .identity none (.multiaddress ⟨[⟨.ip4, some "10.0.0.1"⟩, ⟨.tcp, some "1"⟩]⟩) []

theorem isCandidate_found {x : Node} {vs us : List Node} :
    x.IsCandidate (found vs us) ↔ x ∈ us := by
  rw [isCandidate_iff]
  simp [found, unverified, values]

theorem update_found (vs us vs' us' : List Node) : (found vs us).update (found vs' us') =
    .ok (found (NodeSet.refreshAll vs vs')
      (outstanding (NodeSet.refreshAll vs vs') (NodeSet.refreshAll us us'))) := by
  rw [found, found, update_reachable]
  rfl

theorem found_assoc : ((found [] [localPlain]).update (found [] [localText]) >>= fun r =>
    (found [localText] []).update r) = .ok (found [localText] []) := by
  have hagree := (update_assoc (a := found [localText] []) (b := found [] [localPlain])
    (c := found [] [localText]) (by decide) (by decide) (by decide)).2.1 ?_
  · have hsettled : localPlain.isSettled [localText] = true ∧
      localText.isSettled [localText] = true := by decide +kernel
    refine (hagree _).1 ?_
    rw [update_found, ok_bind, update_found]
    simp [NodeSet.refreshAll, NodeSet.refresh, outstanding, hsettled]
  · simp only [isCandidate_found, List.not_mem_nil, List.mem_singleton, false_or]
    rintro x y (rfl | rfl) (rfl | rfl) _ <;> rfl

/-- A smart node is never settled, though the predicate that it is equal to may be: where the two
meet first decides whether the candidate stays. -/
theorem found_not_assoc :
    (found [localText] []).WellFormed ∧ (found [] [localPlain]).WellFormed ∧
      (found [] [localSmart]).WellFormed ∧
    ((found [localText] []).update (found [] [localPlain]) >>= fun r =>
      r.update (found [] [localSmart])) = .ok (found [localText] [localSmart]) ∧
    ((found [] [localPlain]).update (found [] [localSmart]) >>= fun r =>
      (found [localText] []).update r) = .ok (found [localText] []) ∧
    (found [localText] [localSmart]).eqv (found [localText] []) = false := by
  have hsame : localPlain.eqv localSmart = true := by decide
  have hplain : localPlain.isSettled [localText] = true := by decide +kernel
  have hsmart : localSmart.isSettled [localText] = false := by decide +kernel
  have hnone : localPlain.isSettled [] = false := by decide +kernel
  have hrefreshed : localPlain.withExpiry (Expiry.combine localPlain.expiry localSmart.expiry) =
    localPlain := rfl
  refine ⟨by decide, by decide, by decide, ?_, ?_, by decide⟩
  · rw [update_found, ok_bind, update_found]
    simp [NodeSet.refreshAll, NodeSet.refresh, outstanding, hplain, hsmart]
  · rw [update_found, ok_bind, update_found]
    simp [NodeSet.refreshAll, NodeSet.refresh, outstanding, hsame, hrefreshed, hplain, hnone]

end Node

end PeerRecords
