import PeerRecords.Proofs.Regrouping

/-
  Unverified candidates under updates.
  An update goes into the values of dicts, of named arguments and of the user's fields (`values`),
  and the candidates it meets there come from both sides (`forall_candidate_of_update`). Where equal
  candidates stand for the same address (`IsAddressed`), it does not matter when they are settled
  (`outstanding_assoc`). Without candidates an update does what it does with them
  (`map_dropUnverified_update`).
-/

namespace PeerRecords

open Node

namespace Node

/-! ## Candidates -/

/-- The nodes that an update goes into: the values of a dict, of named arguments and of the user's
fields. -/
def values : Node → List Node
  | .leaf _ _ | .set _ _ _ => []
  | .dict _ _ ps | .predicate _ _ _ _ ps => ps.map (·.2)
  | .identity _ _ us | .claim _ _ _ _ _ us | .verify _ _ us | .reachable _ _ _ _ _ _ us =>
    us.map (·.2)

/-- A node is an unverified candidate of a reachability result that an update can reach. -/
inductive IsCandidate (x : Node) : Node → Prop where
  | unverified {n : Node} (h : x ∈ n.unverified) : IsCandidate x n
  | value {n v : Node} (hv : v ∈ n.values) (h : IsCandidate x v) : IsCandidate x n

theorem isCandidate_iff {x n : Node} :
    x.IsCandidate n ↔ x ∈ n.unverified ∨ ∃ v ∈ n.values, x.IsCandidate v := by
  constructor
  · intro h
    cases h with
    | unverified h => exact .inl h
    | value hv h => exact .inr ⟨_, hv, h⟩
  · rintro (h | ⟨v, hv, h⟩)
    · exact .unverified h
    · exact .value hv h

theorem mem_children_of_mem_values {v n : Node} (h : v ∈ n.values) : v ∈ n.children := by
  have hentries : ∀ {ps : List (Node × Node)}, v ∈ ps.map (·.2) → v ∈ entryNodes ps := by
    intro ps hv
    obtain ⟨p, hp, rfl⟩ := List.mem_map.1 hv
    exact snd_mem_entryNodes hp
  cases n with
  | leaf e v => exact absurd h List.not_mem_nil
  | set e t es => exact absurd h List.not_mem_nil
  | dict e t ps => exact hentries h
  | predicate e t as nt ps => exact List.mem_append_right _ (hentries h)
  | identity e i us => exact hentries h
  | claim e a b s g us => exact List.mem_cons_of_mem _ (hentries h)
  | verify e s us => exact List.mem_cons_of_mem _ (hentries h)
  | reachable e m vt vs ut uvs us => exact List.mem_append_right _ (hentries h)

theorem Updated.forall_mem_values {P : Node → Prop} {a b r : Node} (h : Updated a b r)
    (ha : ∀ v ∈ a.values, P v) (hb : ∀ v ∈ b.values, P v)
    (hstep : ∀ v ∈ b.values, ∀ x w, P x → x.update v = .ok w → P w) : ∀ v ∈ r.values, P v := by
  have hentries : ∀ {ps qs rs : List (Node × Node)}, updateEntries ps qs = .ok rs →
      ps.map (·.2) = a.values → qs.map (·.2) = b.values → ∀ v ∈ rs.map (·.2), P v := by
    intro ps qs rs hrs hps hqs
    rw [← hps] at ha
    rw [← hqs] at hb hstep
    exact List.forall_mem_map.2 (forall_snd_updateEntries (List.forall_mem_map.1 ha)
      (List.forall_mem_map.1 hb) (List.forall_mem_map.1 hstep) hrs)
  cases h with
  | leaf e e' h => exact ha
  | set e e' t es fs => exact ha
  | dict e e' t t' h => exact hentries h rfl rfl
  | predicate e e' t t' nt nt' as bs h => exact hentries h rfl rfl
  | identity e e' hi h => exact hentries h rfl rfl
  | claim e e' x p p' s s' g g' h => exact hentries h rfl rfl
  | verify e e' s s' h => exact hentries h rfl rfl
  | reachable e e' m m' vt ut vs vs' uvs uvs' h => exact hentries h rfl rfl

theorem Updated.forall_mem_unverified {P : Node → Prop} (hP : ∀ e n, P n → P (n.withExpiry e))
    {a b r : Node} (h : Updated a b r) (ha : ∀ x ∈ a.unverified, P x)
    (hb : ∀ x ∈ b.unverified, P x) : ∀ x ∈ r.unverified, P x := by
  cases h with
  | reachable e e' m m' vt ut vs vs' uvs uvs' h =>
    intro x hx
    exact NodeSet.forall_mem_refreshAll hP ha hb x (List.mem_filter.1 hx).1
  | _ => exact fun x hx => absurd hx List.not_mem_nil

/-- What holds of the candidates of both documents, whatever their expirations, holds of the
candidates of the updated one. -/
theorem forall_candidate_of_update {P : Node → Prop} (hP : ∀ e n, P n → P (n.withExpiry e))
    {a b r : Node} (ha : ∀ x : Node, x.IsCandidate a → P x) (hb : ∀ x : Node, x.IsCandidate b → P x)
    (h : a.update b = .ok r) : ∀ x : Node, x.IsCandidate r → P x := by
  induction b using induct_children generalizing a r with
  | step b ih =>
    have hr := updated_of_update h
    intro x hx
    obtain hx | ⟨v, hv, hx⟩ := isCandidate_iff.1 hx
    · exact hr.forall_mem_unverified hP (fun y hy => ha y (.unverified hy))
        (fun y hy => hb y (.unverified hy)) x hx
    · refine hr.forall_mem_values (P := fun v => ∀ x : Node, x.IsCandidate v → P x) ?_ ?_ ?_ v hv
        x hx
      · exact fun v hv y hy => ha y (.value hv hy)
      · exact fun v hv y hy => hb y (.value hv hy)
      · exact fun v hv old w hold hw =>
          ih v (mem_children_of_mem_values hv) hold (fun y hy => hb y (.value hv hy)) hw

end Node

/-! ## Settling in a row -/

namespace NodeSet

/-- A refresh and a choice that takes equal nodes alike may change places. -/
theorem filter_refresh {C : Node → Prop} {keep : Node → Bool}
    (hkeep : ∀ x y, C x → C y → x.eqv y = true → keep x = keep y)
    (hexpiry : ∀ e x, keep (x.withExpiry e) = keep x) {n : Node} {ns : List Node} (hn : C n)
    (hns : ∀ m ∈ ns, C m) : (refresh n ns).filter keep =
      if keep n then refresh n (ns.filter keep) else ns.filter keep := by
  induction ns with
  | nil =>
    rw [refresh, List.filter_cons]
    rfl
  | cons m ms ih =>
    obtain ⟨hm, hms⟩ := List.forall_mem_cons.1 hns
    rw [refresh_cons]
    by_cases hmn : m.eqv n = true
    · have hsame := hkeep m n hm hn hmn
      have hfresh : keep (m.refreshedBy n) = keep n := (hexpiry _ m).trans hsame
      rw [if_pos hmn, List.filter_cons, List.filter_cons, hfresh, hsame]
      cases keep n with
      | true => rw [if_pos rfl, if_pos rfl, if_pos rfl, refresh_cons, if_pos hmn]
      | false => rfl
    · rw [if_neg hmn, List.filter_cons, List.filter_cons, ih hms]
      cases keep m <;> cases keep n <;> simp [refresh_cons, hmn]

theorem filter_refreshAll {C : Node → Prop} {keep : Node → Bool}
    (hC : ∀ e x, C x → C (x.withExpiry e))
    (hkeep : ∀ x y, C x → C y → x.eqv y = true → keep x = keep y)
    (hexpiry : ∀ e x, keep (x.withExpiry e) = keep x) {old new : List Node} (hold : ∀ m ∈ old, C m)
    (hnew : ∀ n ∈ new, C n) :
    (refreshAll old new).filter keep = refreshAll (old.filter keep) (new.filter keep) := by
  induction new generalizing old with
  | nil => rfl
  | cons n new ih =>
    obtain ⟨hn, hrest⟩ := List.forall_mem_cons.1 hnew
    have hrefreshed : ∀ m ∈ refresh n old, C m := by
      intro m hm
      obtain rfl | ⟨x, hx, e, rfl⟩ := mem_refresh hm
      · exact hn
      · exact hC e x (hold x hx)
    rw [refreshAll_cons, ih hrefreshed hrest, filter_refresh hkeep hexpiry hn hold,
      List.filter_cons]
    cases keep n <;> rfl

end NodeSet

namespace Node

theorem normalAddress?_withExpiry (e : Expiry) (n : Node) :
    (n.withExpiry e).normalAddress? = n.normalAddress? := by
  rw [← normalAddress?_timeless, timeless_withExpiry, normalAddress?_timeless]

/-- Equal candidates of the class stand for the same address, and the class does not go by
expirations. -/
structure IsAddressed (C : Node → Prop) : Prop where
  withExpiry : ∀ e x, C x → C (x.withExpiry e)
  address : ∀ x y, C x → C y → x.eqv y = true → x.normalAddress? = y.normalAddress?

/-- Candidates that are no smart nodes stand for the same address if they are equal. -/
theorem isAddressed_of_not_smart : IsAddressed fun n => n.isSmart = false where
  withExpiry := by
    intro e x hx
    cases x <;> exact hx
  address := by
    intro x y hx hy hxy
    rw [normalAddress?, candidateAddr?, candidateText?_congr hxy hx hy]
    rfl

theorem isSettled_mono {vs ws : List Node}
    (h : ∀ s, (ofString s).isIn vs = true → (ofString s).isIn ws = true) {x : Node}
    (hx : x.isSettled vs = true) : x.isSettled ws = true := by
  unfold isSettled at hx ⊢
  cases hs : x.normalAddress? with
  | none => rw [hs] at hx; cases hx
  | some s => rw [hs] at hx; exact h s hx

/-- What one list of verified addresses settles need not be taken out before a longer one does. -/
theorem outstanding_outstanding {vs ws : List Node}
    (h : ∀ s, (ofString s).isIn vs = true → (ofString s).isIn ws = true) (us : List Node) :
    outstanding ws (outstanding vs us) = outstanding ws us := by
  unfold outstanding
  rw [List.filter_filter]
  refine List.filter_congr fun x _ => ?_
  cases hx : x.isSettled vs with
  | true => rw [isSettled_mono h hx]; rfl
  | false => simp

theorem outstanding_refreshAll {C : Node → Prop} (hC : IsAddressed C) (ws : List Node)
    {us cs : List Node} (hus : ∀ x ∈ us, C x) (hcs : ∀ x ∈ cs, C x) :
    outstanding ws (NodeSet.refreshAll us cs) =
      NodeSet.refreshAll (outstanding ws us) (outstanding ws cs) := by
  refine NodeSet.filter_refreshAll hC.withExpiry (fun x y hx hy hxy => ?_) (fun e x => ?_) hus hcs
  · rw [isSettled, isSettled, hC.address x y hx hy hxy]
  · rw [isSettled, isSettled, normalAddress?_withExpiry]

theorem mem_of_mem_outstanding {x : Node} {vs us : List Node} (h : x ∈ outstanding vs us) :
    x ∈ us := (List.mem_filter.1 h).1

/-- Candidates may be settled by what was verified so far before they are settled by all that is
verified. -/
theorem outstanding_assoc {C : Node → Prop} (hC : IsAddressed C)
    {vs₁ vs₂ vs₃ us₁ us₂ us₃ : List Node} (hvs₁ : ∀ n ∈ vs₁, n.WellFormed)
    (hvs₂ : ∀ n ∈ vs₂, n.WellFormed) (hvs₃ : ∀ n ∈ vs₃, n.WellFormed)
    (hus₁ : ∀ n ∈ us₁, n.WellFormed ∧ C n) (hus₂ : ∀ n ∈ us₂, n.WellFormed ∧ C n)
    (hus₃ : ∀ n ∈ us₃, n.WellFormed ∧ C n) :
    outstanding (NodeSet.refreshAll (NodeSet.refreshAll vs₁ vs₂) vs₃)
        (NodeSet.refreshAll (outstanding (NodeSet.refreshAll vs₁ vs₂)
          (NodeSet.refreshAll us₁ us₂)) us₃) =
      outstanding (NodeSet.refreshAll vs₁ (NodeSet.refreshAll vs₂ vs₃))
        (NodeSet.refreshAll us₁ (outstanding (NodeSet.refreshAll vs₂ vs₃)
          (NodeSet.refreshAll us₂ us₃))) := by
  have hC₁ : ∀ n ∈ us₁, C n := fun n hn => (hus₁ n hn).2
  have hC₂ : ∀ n ∈ us₂, C n := fun n hn => (hus₂ n hn).2
  have hC₃ : ∀ n ∈ us₃, C n := fun n hn => (hus₃ n hn).2
  have hC₁₂ : ∀ n ∈ NodeSet.refreshAll us₁ us₂, C n :=
    NodeSet.forall_mem_refreshAll hC.withExpiry hC₁ hC₂
  have hC₂₃ : ∀ n ∈ NodeSet.refreshAll us₂ us₃, C n :=
    NodeSet.forall_mem_refreshAll hC.withExpiry hC₂ hC₃
  have hfirst : ∀ s, (ofString s).isIn (NodeSet.refreshAll vs₁ vs₂) = true →
      (ofString s).isIn (NodeSet.refreshAll vs₁ (NodeSet.refreshAll vs₂ vs₃)) = true := by
    intro s hs
    rw [← NodeSet.refreshAll_assoc hvs₁ hvs₂ hvs₃]
    exact NodeSet.isIn_refreshAll vs₃ hs
  have hlast : ∀ s, (ofString s).isIn (NodeSet.refreshAll vs₂ vs₃) = true →
      (ofString s).isIn (NodeSet.refreshAll vs₁ (NodeSet.refreshAll vs₂ vs₃)) = true := by
    intro s hs
    exact NodeSet.isIn_refreshAll_of_isIn hvs₁ (NodeSet.wellFormed_refreshAll hvs₂ hvs₃) rfl hs
  rw [NodeSet.refreshAll_assoc hvs₁ hvs₂ hvs₃,
    outstanding_refreshAll hC _ (fun n hn => hC₁₂ n (mem_of_mem_outstanding hn)) hC₃,
    outstanding_outstanding hfirst, ← outstanding_refreshAll hC _ hC₁₂ hC₃,
    NodeSet.refreshAll_assoc (fun n hn => (hus₁ n hn).1) (fun n hn => (hus₂ n hn).1)
      (fun n hn => (hus₃ n hn).1),
    outstanding_refreshAll hC _ hC₁ fun n hn => hC₂₃ n (mem_of_mem_outstanding hn),
    outstanding_outstanding hlast, ← outstanding_refreshAll hC _ hC₁ hC₂₃]

/-! ## Documents without unverified candidates -/

mutual

/-- The document without the unverified candidates that an update can reach. -/
def dropUnverified : Node → Node
  | .leaf e v => .leaf e v
  | .dict e t ps => .dict e t (dropUnverifiedEntries ps)
  | .set e t es => .set e t es
  | .predicate e t as nt ps => .predicate e t as nt (dropUnverifiedEntries ps)
  | .identity e i us => .identity e i (dropUnverifiedEntries us)
  | .claim e a b s g us => .claim e a b s g (dropUnverifiedEntries us)
  | .verify e s us => .verify e s (dropUnverifiedEntries us)
  | .reachable e m vt vs ut _ us => .reachable e m vt vs ut [] (dropUnverifiedEntries us)
termination_by structural n => n

/-- The entries with their values without unverified candidates. -/
def dropUnverifiedEntries : List (Node × Node) → List (Node × Node)
  | [] => []
  | (k, v) :: ps => (k, dropUnverified v) :: dropUnverifiedEntries ps
termination_by structural ps => ps

end

theorem dropUnverifiedEntries_eq_map (ps : List (Node × Node)) :
    dropUnverifiedEntries ps = ps.map (Prod.map id dropUnverified) := by
  induction ps with
  | nil => rfl
  | cons p ps ih =>
    obtain ⟨k, v⟩ := p
    rw [dropUnverifiedEntries, ih, List.map_cons, Prod.map_apply, id]

theorem values_dropUnverified (n : Node) :
    n.dropUnverified.values = n.values.map dropUnverified := by
  cases n <;> simp [dropUnverified, values, dropUnverifiedEntries_eq_map]

theorem unverified_dropUnverified (n : Node) : n.dropUnverified.unverified = [] := by
  cases n <;> rfl

theorem not_isCandidate_dropUnverified (x n : Node) : ¬ x.IsCandidate n.dropUnverified := by
  induction n using induct_children with
  | step n ih =>
    rw [isCandidate_iff, unverified_dropUnverified, values_dropUnverified]
    rintro (h | ⟨_, hdropped, h⟩)
    · exact absurd h List.not_mem_nil
    · obtain ⟨v, hv, rfl⟩ := List.mem_map.1 hdropped
      exact ih v (mem_children_of_mem_values hv) h

theorem isLocallyWellFormed_dropUnverified {n : Node} (h : n.isLocallyWellFormed = true) :
    n.dropUnverified.isLocallyWellFormed = true := by
  have hkeys : ∀ ps, (dropUnverifiedEntries ps).map (·.1) = ps.map (·.1) := by
    intro ps
    simp [dropUnverifiedEntries_eq_map]
  cases n <;> simp_all [dropUnverified, isLocallyWellFormed, areDistinct]

theorem mem_children_dropUnverified {n c : Node} (h : c ∈ n.dropUnverified.children) :
    c ∈ n.children ∨ ∃ d ∈ n.children, c = d.dropUnverified := by
  have hentries : ∀ {ps : List (Node × Node)}, c ∈ entryNodes (dropUnverifiedEntries ps) →
      c ∈ entryNodes ps ∨ ∃ d ∈ entryNodes ps, c = d.dropUnverified := by
    intro ps hc
    rw [dropUnverifiedEntries_eq_map] at hc
    obtain ⟨_, hp, hc⟩ := mem_entryNodes.1 hc
    obtain ⟨p, hmem, rfl⟩ := List.mem_map.1 hp
    obtain rfl | rfl := hc
    · exact .inl (fst_mem_entryNodes (p := p) hmem)
    · exact .inr ⟨p.2, snd_mem_entryNodes hmem, rfl⟩
  have hlift : ∀ {ns ms : List Node}, (∀ d ∈ ns, d ∈ ms) →
      (c ∈ ns ∨ ∃ d ∈ ns, c = d.dropUnverified) → c ∈ ms ∨ ∃ d ∈ ms, c = d.dropUnverified := by
    rintro ns ms hsub (hc | ⟨d, hd, rfl⟩)
    · exact .inl (hsub c hc)
    · exact .inr ⟨d, hsub d hd, rfl⟩
  cases n with
  | leaf e v => exact .inl h
  | set e t es => exact .inl h
  | dict e t ps => exact hentries h
  | identity e i us => exact hentries h
  | predicate e t as nt ps =>
    obtain h | h := List.mem_append.1 h
    · exact .inl (List.mem_append_left _ h)
    · exact hlift (fun _ => List.mem_append_right _) (hentries h)
  | claim e a b s g us =>
    obtain rfl | h := List.mem_cons.1 h
    · exact .inl List.mem_cons_self
    · exact hlift (fun _ => List.mem_cons_of_mem _) (hentries h)
  | verify e s us =>
    obtain rfl | h := List.mem_cons.1 h
    · exact .inl List.mem_cons_self
    · exact hlift (fun _ => List.mem_cons_of_mem _) (hentries h)
  | reachable e m vt vs ut uvs us =>
    rw [Node.dropUnverified, children, List.append_nil] at h
    obtain h | h := List.mem_append.1 h
    · exact .inl (List.mem_append_left _ (List.mem_append_left _ h))
    · exact hlift (fun _ => List.mem_append_right _) (hentries h)

theorem WellFormed.dropUnverified {n : Node} (h : n.WellFormed) : n.dropUnverified.WellFormed := by
  induction n using induct_children with
  | step n ih =>
    refine wellFormed_iff_children.2 ⟨?_, fun c hc => ?_⟩
    · exact isLocallyWellFormed_dropUnverified (wellFormed_iff_children.1 h).1
    · obtain hc | ⟨d, hd, rfl⟩ := mem_children_dropUnverified hc
      · exact h.child hc
      · exact ih d hd (h.child hd)

/-- An update without unverified candidates is the update of what is left without them. -/
theorem map_dropUnverified_update (a b : Node) :
    (a.update b).map dropUnverified = a.dropUnverified.update b.dropUnverified := by
  have hentries : ∀ {ps qs : List (Node × Node)}, (∀ q ∈ qs, ∀ a : Node,
      (a.update q.2).map dropUnverified = a.dropUnverified.update q.2.dropUnverified) →
      updateEntries (dropUnverifiedEntries ps) (dropUnverifiedEntries qs) =
        (updateEntries ps qs).map dropUnverifiedEntries := by
    intro ps qs h
    have hmap := map_updateEntries (g := id) (f := Node.dropUnverified) (fun a b => rfl)
      (fun a b => rfl) h ps
    rw [dropUnverifiedEntries_eq_map, dropUnverifiedEntries_eq_map, ← hmap]
    exact congrArg (fun f => (updateEntries ps qs).map f) (funext fun rs =>
      (dropUnverifiedEntries_eq_map rs).symm)
  induction b using Node.induct generalizing a with
  | leaf e' v' =>
    cases a with
    | leaf e v =>
      rw [dropUnverified, dropUnverified, update]
      split <;> rfl
    | _ => rfl
  | dict e' t' qs ih =>
    cases a with
    | dict e t ps =>
      rw [dropUnverified, dropUnverified, update_dict, update_dict,
        hentries fun q hq a => (ih q hq).2 a]
      cases updateEntries ps qs <;> rfl
    | _ => rfl
  | set e' t' fs ih =>
    cases a with
    | set e t es =>
      rw [dropUnverified, dropUnverified, update]
      cases checkTags t t' <;> rfl
    | _ => rfl
  | predicate e' t' bs nt' qs iha ihp =>
    cases a with
    | predicate e t as nt ps =>
      rw [dropUnverified, dropUnverified, update_predicate, update_predicate,
        hentries fun q hq a => (ihp q hq).2 a]
      cases updateEntries ps qs <;> rfl
    | _ => rfl
  | identity e' i' us' ih =>
    cases a with
    | identity e i us =>
      rw [dropUnverified, dropUnverified, update, update, hentries fun q hq a => (ih q hq).2 a]
      cases Identity.update i i' with
      | error x => rfl
      | ok j => cases updateEntries us us' <;> rfl
    | _ => rfl
  | claim e' x' p' s' g' us' ihs ihu =>
    cases a with
    | claim e x p s g us =>
      rw [dropUnverified, dropUnverified, update, update, hentries fun q hq a => (ihu q hq).2 a]
      split
      · cases updateEntries us us' <;> rfl
      · rfl
    | _ => rfl
  | verify e' s' us' ihs ihu =>
    cases a with
    | verify e s us =>
      rw [dropUnverified, dropUnverified, update_verify, update_verify,
        hentries fun q hq a => (ihu q hq).2 a]
      cases updateEntries us us' <;> rfl
    | _ => rfl
  | reachable e' m' vt' vs' ut' uvs' us' ihv ihn ihu =>
    cases a with
    | reachable e m vt vs ut uvs us =>
      rw [dropUnverified, dropUnverified, update, update, hentries fun q hq a => (ihu q hq).2 a]
      cases checkTags vt vt' with
      | error x => rfl
      | ok x =>
        cases checkTags ut ut' with
        | error x => rfl
        | ok x => cases updateEntries us us' <;> rfl
    | _ => rfl

end Node

end PeerRecords
