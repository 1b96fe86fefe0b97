import PeerRecords.Proofs.Associativity
import PeerRecords.Proofs.Merge.Basic

/-
  Joins in a row, and the join of a document with itself.
  Three documents may be joined from the left or from the right if their equal candidates stand for
  the same address (`agree_join_join`), by induction on the first, whose head every result has.
  Without candidates that holds of all documents (`agree_join_dropUnverified`). A document that
  holds no settled candidate is its own join (`join_self`). `join_assoc_and_idem` says all three.
-/

namespace PeerRecords

open Node

namespace Node

/-! ## Settling in a row -/

theorem outstanding_addAll {C : Node → Prop}
    (hC : ∀ x y : Node, C x → C y → x.eqv y = true → x.normalAddress? = y.normalAddress?)
    (ws : List Node) {us cs : List Node} (hus : ∀ x ∈ us, C x) (hcs : ∀ x ∈ cs, C x) :
    outstanding ws (NodeSet.addAll us cs) =
      NodeSet.addAll (outstanding ws us) (outstanding ws cs) := by
  refine NodeSet.filter_addAll (fun x y hx hy hxy => ?_) hus hcs
  rw [isSettled, isSettled, hC x y hx hy hxy]

/-- Candidates may be settled by what was verified so far before they are settled by all that is
verified. -/
theorem outstanding_addAll_assoc {C : Node → Prop}
    (hC : ∀ x y : Node, C x → C y → x.eqv y = true → x.normalAddress? = y.normalAddress?)
    {vs₁ vs₂ vs₃ us₁ us₂ us₃ : List Node} (hvs₁ : ∀ n ∈ vs₁, n.WellFormed)
    (hvs₂ : ∀ n ∈ vs₂, n.WellFormed) (hvs₃ : ∀ n ∈ vs₃, n.WellFormed)
    (hus₁ : ∀ n ∈ us₁, n.WellFormed ∧ C n) (hus₂ : ∀ n ∈ us₂, n.WellFormed ∧ C n)
    (hus₃ : ∀ n ∈ us₃, n.WellFormed ∧ C n) :
    outstanding (NodeSet.addAll (NodeSet.addAll vs₁ vs₂) vs₃)
        (NodeSet.addAll (outstanding (NodeSet.addAll vs₁ vs₂) (NodeSet.addAll us₁ us₂)) us₃) =
      outstanding (NodeSet.addAll vs₁ (NodeSet.addAll vs₂ vs₃))
        (NodeSet.addAll us₁ (outstanding (NodeSet.addAll vs₂ vs₃) (NodeSet.addAll us₂ us₃))) := by
  have hC₁ : ∀ n ∈ us₁, C n := fun n hn => (hus₁ n hn).2
  have hC₂ : ∀ n ∈ us₂, C n := fun n hn => (hus₂ n hn).2
  have hC₃ : ∀ n ∈ us₃, C n := fun n hn => (hus₃ n hn).2
  have hunited : ∀ {xs ys : List Node}, (∀ x ∈ xs, C x) → (∀ y ∈ ys, C y) →
      ∀ n ∈ NodeSet.addAll xs ys, C n := fun hxs hys n hn =>
    (NodeSet.mem_addAll hn).elim (hxs n) (hys n)
  have hfirst : ∀ s, (ofString s).isIn (NodeSet.addAll vs₁ vs₂) = true →
      (ofString s).isIn (NodeSet.addAll vs₁ (NodeSet.addAll vs₂ vs₃)) = true := by
    intro s hs
    rw [← NodeSet.addAll_assoc hvs₁ hvs₂ hvs₃]
    exact NodeSet.isIn_addAll vs₃ hs
  have hlast : ∀ s, (ofString s).isIn (NodeSet.addAll vs₂ vs₃) = true →
      (ofString s).isIn (NodeSet.addAll vs₁ (NodeSet.addAll vs₂ vs₃)) = true := fun s hs =>
    (NodeSet.isIn_addAll_iff (x := ofString s) rfl hvs₁
      (NodeSet.wellFormed_addAll hvs₂ hvs₃)).2 (.inr hs)
  rw [NodeSet.addAll_assoc hvs₁ hvs₂ hvs₃,
    outstanding_addAll hC _ (fun n hn => hunited hC₁ hC₂ n (mem_of_mem_outstanding hn)) hC₃,
    outstanding_outstanding hfirst, ← outstanding_addAll hC _ (hunited hC₁ hC₂) hC₃,
    NodeSet.addAll_assoc (fun n hn => (hus₁ n hn).1) (fun n hn => (hus₂ n hn).1)
      (fun n hn => (hus₃ n hn).1),
    outstanding_addAll hC _ hC₁ fun n hn => hunited hC₂ hC₃ n (mem_of_mem_outstanding hn),
    outstanding_outstanding hlast, ← outstanding_addAll hC _ hC₁ (hunited hC₂ hC₃)]

/-! ## Three documents -/

/-- Only nodes that meet are joined in a row, from the left or from the right. -/
theorem meets_of_join_join {a b c v : Node} (ha : a.WellFormed) (hb : b.WellFormed)
    (hc : c.WellFormed) (h : (a.join b >>= fun r => r.join c) = .ok v ∨
      (b.join c >>= fun r => a.join r) = .ok v) : Meets a b ∧ Meets b c := by
  obtain h | h := h
  · obtain ⟨r, hr, h⟩ := bind_eq_ok.1 h
    have hab := meets_of_join hr
    exact ⟨hab, (hab.symm ha hb).trans hb ha hc ((joined_iff.1 hr).meets_left (meets_of_join h))⟩
  · obtain ⟨r, hr, h⟩ := bind_eq_ok.1 h
    exact ⟨(joined_iff.1 hr).meets_right (meets_of_join h), meets_of_join hr⟩

variable {C : Node → Prop}
  (hC : ∀ x y : Node, C x → C y → x.eqv y = true → x.normalAddress? = y.normalAddress?)
include hC

theorem agree_join_join {a b c : Node} (ha : a.Admits C) (hb : b.Admits C) (hc : c.Admits C) :
    Agree (a.join b >>= fun r => r.join c) (b.join c >>= fun r => a.join r) := by
  induction a using induct_children generalizing b c with
  | step a ih =>
    have hvalue : ∀ {n : Node}, n.Admits C → ∀ p ∈ n.fields, p.2.Admits C := by
      intro n hn p hp
      refine ⟨hn.1.child (snd_mem_children hp), fun x hx => hn.2 x (.value ?_ hx)⟩
      exact values_eq_map n ▸ List.mem_map_of_mem hp
    have hentries : Agree (joinEntries a.fields b.fields >>= fun us => joinEntries us c.fields)
        (joinEntries b.fields c.fields >>= fun us => joinEntries a.fields us) :=
      joinEntries_assoc ha.1.keyed hb.1.keyed hc.1.keyed fun p hp q hq r hr =>
        ih p.2 (snd_mem_children hp) (hvalue ha p hp) (hvalue hb q hq) (hvalue hc r hr)
    refine Agree.of_ok fun v hv => ?_
    obtain ⟨hab, hbc⟩ := meets_of_join_join ha.1 hb.1 hc.1 hv
    clear hv v
    have hac := hab.trans ha.1 hb.1 hc.1 hbc
    cases hab with
    | leaf e₁ e₂ h₁₂ =>
      cases hbc with
      | leaf _ e₃ h₂₃ =>
        cases hac with
        | leaf _ _ h₁₃ =>
          refine .of_eq ?_
          rw [join_leaf e₁ e₂ h₁₂, join_leaf e₂ e₃ h₂₃, ok_bind, ok_bind, join_leaf _ e₃ h₁₃,
            join_leaf e₁ _ h₁₂, Expiry.combine_assoc]
    | dict e₁ e₂ t ps qs =>
      cases hbc with
      | dict _ e₃ _ _ rs =>
        have h := hentries.bind_left
          fun xs => .ok (dict (Expiry.combine e₁ (Expiry.combine e₂ e₃)) t xs)
        simpa only [fields, join_dict, bind_assoc, ok_bind, Expiry.combine_assoc] using h
    | set e₁ e₂ t es₁ es₂ =>
      cases hbc with
      | set _ e₃ _ _ es₃ =>
        have helements : NodeSet.addAll (NodeSet.addAll es₁ es₂) es₃ =
            NodeSet.addAll es₁ (NodeSet.addAll es₂ es₃) :=
          NodeSet.addAll_assoc (fun n hn => ha.1.child hn) (fun n hn => hb.1.child hn)
            fun n hn => hc.1.child hn
        refine .of_eq ?_
        rw [join_set, join_set, ok_bind, ok_bind, join_set, join_set, Expiry.combine_assoc,
          helements]
    | predicate e₁ e₂ t nt₁ nt₂ as₁ as₂ ps qs =>
      cases hbc with
      | predicate _ e₃ _ _ nt₃ _ as₃ _ rs =>
        have hargs := NodeSet.addAll_assoc
          (fun n hn => ha.1.child (List.mem_append_left _ hn))
          (fun n hn => hb.1.child (List.mem_append_left _ hn))
          (fun n hn => hc.1.child (List.mem_append_left _ hn))
        have h := hentries.bind_left fun xs =>
          .ok (predicate (Expiry.combine e₁ (Expiry.combine e₂ e₃)) t
            (NodeSet.addAll as₁ (NodeSet.addAll as₂ as₃)) nt₁ xs)
        simpa only [fields, join_predicate, bind_assoc, ok_bind, Expiry.combine_assoc, hargs]
          using h
    | identity e₁ e₂ i us₁ us₂ =>
      cases hbc with
      | identity _ e₃ _ _ us₃ =>
        have h := hentries.bind_left fun xs =>
          .ok (identity (Expiry.combine e₁ (Expiry.combine e₂ e₃)) i xs)
        simpa only [fields, join_identity, bind_assoc, ok_bind, Expiry.combine_assoc] using h
    | @claim e₁ e₂ x p s₁ _ h₁₂ g us₁ us₂ =>
      cases hbc with
      | claim _ e₃ _ _ h₂₃ _ _ us₃ =>
        cases hac with
        | claim _ _ _ _ h₁₃ _ _ _ =>
          have h := hentries.bind_left fun xs =>
            .ok (claim (Expiry.combine e₁ (Expiry.combine e₂ e₃)) x p s₁ g xs)
          simpa only [fields, join_claim _ _ _ _ h₁₂, join_claim _ _ _ _ h₂₃,
            join_claim _ _ _ _ h₁₃, bind_assoc, ok_bind, Expiry.combine_assoc] using h
    | @verify e₁ e₂ s₁ _ h₁₂ us₁ us₂ =>
      cases hbc with
      | verify _ e₃ h₂₃ _ us₃ =>
        cases hac with
        | verify _ _ h₁₃ _ _ =>
          have h := hentries.bind_left fun xs =>
            .ok (verify (Expiry.combine e₁ (Expiry.combine e₂ e₃)) s₁ xs)
          simpa only [fields, join_verify _ _ h₁₂, join_verify _ _ h₂₃, join_verify _ _ h₁₃,
            bind_assoc, ok_bind, Expiry.combine_assoc] using h
    | reachable e₁ e₂ m vt vt₂ ut ut₂ vs₁ vs₂ uvs₁ uvs₂ us₁ us₂ =>
      cases hbc with
      | reachable _ e₃ _ _ vt₃ _ ut₃ _ vs₃ _ uvs₃ _ us₃ =>
        have hverified : ∀ {e m vt ut us} {vs uvs : List Node},
            (reachable e m vt vs ut uvs us).Admits C → ∀ n ∈ vs, n.WellFormed := fun hn x hx =>
          hn.1.child (List.mem_append_left _ (List.mem_append_left _ hx))
        have hunverified : ∀ {e m vt ut us} {vs uvs : List Node},
            (reachable e m vt vs ut uvs us).Admits C → ∀ n ∈ uvs, n.WellFormed ∧ C n := by
          intro e m vt ut us vs uvs hn x hx
          have hchild := List.mem_append_left (entryNodes us) (List.mem_append_right vs hx)
          exact ⟨hn.1.child hchild, hn.2 x (.unverified hx)⟩
        have hassoc := NodeSet.addAll_assoc (hverified ha) (hverified hb) (hverified hc)
        have hsettled := outstanding_addAll_assoc hC (hverified ha) (hverified hb) (hverified hc)
          (hunverified ha) (hunverified hb) (hunverified hc)
        rw [hassoc] at hsettled
        have h := hentries.bind_left fun xs =>
          .ok (reachable (Expiry.combine e₁ (Expiry.combine e₂ e₃)) m vt
            (NodeSet.addAll vs₁ (NodeSet.addAll vs₂ vs₃)) ut
            (outstanding (NodeSet.addAll vs₁ (NodeSet.addAll vs₂ vs₃))
              (NodeSet.addAll uvs₁ (outstanding (NodeSet.addAll vs₂ vs₃)
                (NodeSet.addAll uvs₂ uvs₃)))) xs)
        simpa only [fields, join_reachable, bind_assoc, ok_bind, Expiry.combine_assoc, hsettled,
          hassoc] using h

omit hC

/-! ## Documents without unverified candidates -/

theorem at?_dropUnverifiedEntries (k : Node) (ps : List (Node × Node)) :
    Entries.at? k (dropUnverifiedEntries ps) = (Entries.at? k ps).map dropUnverified := by
  induction ps with
  | nil => rfl
  | cons p ps ih =>
    obtain ⟨l, v⟩ := p
    rw [dropUnverifiedEntries, Entries.at?_cons, Entries.at?_cons, ih]
    cases l.eqv k <;> rfl

theorem unmatched_dropUnverifiedEntries (ps qs : List (Node × Node)) :
    unmatched (dropUnverifiedEntries ps) (dropUnverifiedEntries qs) =
      dropUnverifiedEntries (unmatched ps qs) := by
  rw [dropUnverifiedEntries_eq_map qs, dropUnverifiedEntries_eq_map (unmatched ps qs), unmatched,
    unmatched, List.filter_map]
  refine congrArg (List.map _) (List.filter_congr fun q _ => ?_)
  show (Entries.at? q.1 (dropUnverifiedEntries ps)).isNone = (Entries.at? q.1 ps).isNone
  rw [at?_dropUnverifiedEntries, Option.isNone_map]

theorem map_dropUnverified_joinEntries {ps : List (Node × Node)} (h : ∀ p ∈ ps, ∀ b : Node,
    (p.2.join b).map dropUnverified = p.2.dropUnverified.join b.dropUnverified)
    (qs : List (Node × Node)) :
    joinEntries (dropUnverifiedEntries ps) (dropUnverifiedEntries qs) =
      (joinEntries ps qs).map dropUnverifiedEntries := by
  have hmerge : mergeEntries Resolver.reject (dropUnverifiedEntries ps) (dropUnverifiedEntries qs) =
      (mergeEntries Resolver.reject ps qs).map dropUnverifiedEntries := by
    induction ps with
    | nil => rfl
    | cons p ps ih =>
      obtain ⟨k, v⟩ := p
      obtain ⟨hv, hrest⟩ := List.forall_mem_cons.1 h
      have hjoined : joinValue v.dropUnverified ((Entries.at? k qs).map dropUnverified) =
          (joinValue v (Entries.at? k qs)).map dropUnverified := by
        cases Entries.at? k qs with
        | none => rfl
        | some w => exact (hv w).symm
      rw [dropUnverifiedEntries, mergeEntries_cons, mergeEntries_cons, at?_dropUnverifiedEntries,
        hjoined, ih hrest]
      cases joinValue v (Entries.at? k qs) with
      | error e => rfl
      | ok w => cases mergeEntries Resolver.reject ps qs <;> rfl
  have happend : ∀ xs ys : List (Node × Node), dropUnverifiedEntries (xs ++ ys) =
      dropUnverifiedEntries xs ++ dropUnverifiedEntries ys := by
    intro xs ys
    rw [dropUnverifiedEntries_eq_map, dropUnverifiedEntries_eq_map, dropUnverifiedEntries_eq_map,
      List.map_append]
  rw [joinEntries, joinEntries, hmerge, unmatched_dropUnverifiedEntries]
  cases mergeEntries Resolver.reject ps qs with
  | error e => rfl
  | ok rs => exact congrArg Except.ok (happend rs (unmatched ps qs)).symm

/-- A join without unverified candidates is the join of what is left without them. -/
theorem map_dropUnverified_join (a b : Node) :
    (a.join b).map dropUnverified = a.dropUnverified.join b.dropUnverified := by
  induction a using Node.induct generalizing b with
  | leaf e v =>
    cases b with
    | leaf e' v' =>
      rw [dropUnverified, dropUnverified, join, merge]
      split <;> rfl
    | _ => rfl
  | dict e t ps ih =>
    cases b with
    | dict e' t' qs =>
      by_cases ht : t = t'
      · subst ht
        rw [dropUnverified, dropUnverified, join_dict, join_dict,
          map_dropUnverified_joinEntries fun p hp => (ih p hp).2]
        cases joinEntries ps qs <;> rfl
      · rw [dropUnverified, dropUnverified, join, join, merge, merge, if_neg ht, if_neg ht]
        rfl
    | _ => rfl
  | set e t es ih =>
    cases b with
    | set e' t' fs =>
      rw [dropUnverified, dropUnverified, join, merge]
      split <;> rfl
    | _ => rfl
  | predicate e t as nt ps iha ihp =>
    cases b with
    | predicate e' t' bs nt' qs =>
      by_cases ht : t = t'
      · subst ht
        rw [dropUnverified, dropUnverified, join_predicate, join_predicate,
          map_dropUnverified_joinEntries fun p hp => (ihp p hp).2]
        cases joinEntries ps qs <;> rfl
      · rw [dropUnverified, dropUnverified, join, join, merge, merge, if_neg ht, if_neg ht]
        rfl
    | _ => rfl
  | identity e i us ih =>
    cases b with
    | identity e' i' us' =>
      by_cases hi : i' = i
      · subst hi
        rw [dropUnverified, dropUnverified, join_identity, join_identity,
          map_dropUnverified_joinEntries fun p hp => (ih p hp).2]
        cases joinEntries us us' <;> rfl
      · rw [dropUnverified, dropUnverified, join, join, merge, merge, if_neg hi, if_neg hi]
        split <;> rfl
    | _ => rfl
  | claim e x p s g us ihs ihu =>
    cases b with
    | claim e' x' p' s' g' us' =>
      by_cases hsame : x = x' ∧ p' = p ∧ s'.eqv s = true ∧ g' = g
      · obtain ⟨rfl, rfl, hs, rfl⟩ := hsame
        rw [dropUnverified, dropUnverified, join_claim _ _ _ _ hs, join_claim _ _ _ _ hs,
          map_dropUnverified_joinEntries fun p hp => (ihu p hp).2]
        cases joinEntries us us' <;> rfl
      · rw [dropUnverified, dropUnverified, join, join, merge, merge]
        by_cases hx : x = x'
        · have hclaim : ¬ (p' = p ∧ s'.eqv s = true ∧ g' = g) := fun h => hsame ⟨hx, h⟩
          rw [if_pos hx, if_pos hx, if_neg hclaim, if_neg hclaim]
          rfl
        · rw [if_neg hx, if_neg hx]
          rfl
    | _ => rfl
  | verify e s us ihs ihu =>
    cases b with
    | verify e' s' us' =>
      by_cases hs : s'.eqv s = true
      · rw [dropUnverified, dropUnverified, join_verify _ _ hs, join_verify _ _ hs,
          map_dropUnverified_joinEntries fun p hp => (ihu p hp).2]
        cases joinEntries us us' <;> rfl
      · rw [dropUnverified, dropUnverified, join, join, merge, merge, if_neg hs, if_neg hs]
        rfl
    | _ => rfl
  | reachable e m vt vs ut uvs us ihv ihn ihu =>
    cases b with
    | reachable e' m' vt' vs' ut' uvs' us' =>
      by_cases hm : m' = m
      · subst hm
        rw [dropUnverified, dropUnverified, join_reachable, join_reachable,
          map_dropUnverified_joinEntries fun p hp => (ihu p hp).2]
        cases joinEntries us us' <;> rfl
      · rw [dropUnverified, dropUnverified, join, join, merge, merge, if_neg hm, if_neg hm]
        rfl
    | _ => rfl

theorem agree_join_dropUnverified {a b c : Node} (ha : a.WellFormed) (hb : b.WellFormed)
    (hc : c.WellFormed) : Agree ((a.join b >>= fun r => r.join c).map dropUnverified)
      ((b.join c >>= fun r => a.join r).map dropUnverified) := by
  have hadmits : ∀ {n : Node}, n.WellFormed → n.dropUnverified.Admits fun _ => False :=
    fun hn => ⟨hn.dropUnverified, fun x hx => not_isCandidate_dropUnverified x _ hx⟩
  have hleft : (a.join b >>= fun r => r.join c).map dropUnverified =
      a.dropUnverified.join b.dropUnverified >>= fun r => r.join c.dropUnverified := by
    rw [← map_dropUnverified_join]
    cases a.join b with
    | error e => rfl
    | ok r => exact map_dropUnverified_join r c
  have hright : (b.join c >>= fun r => a.join r).map dropUnverified =
      b.dropUnverified.join c.dropUnverified >>= fun r => a.dropUnverified.join r := by
    rw [← map_dropUnverified_join]
    cases b.join c with
    | error e => rfl
    | ok r => exact map_dropUnverified_join a r
  rw [hleft, hright]
  exact agree_join_join (fun _ _ => False.elim) (hadmits ha) (hadmits hb) (hadmits hc)

/-! ## A document with itself -/

/-- No unverified candidate of a reachability result is verified there. -/
def IsUnsettled : Node → Prop
  | .reachable _ _ _ vs _ uvs _ => ∀ c ∈ uvs, c.isSettled vs = false
  | _ => True

instance : DecidablePred IsUnsettled
  | .reachable _ _ _ vs _ uvs _ => inferInstanceAs (Decidable (∀ c ∈ uvs, c.isSettled vs = false))
  | .leaf _ _ | .dict _ _ _ | .set _ _ _ | .predicate _ _ _ _ _ | .identity _ _ _
  | .claim _ _ _ _ _ _ | .verify _ _ _ => .isTrue trivial

theorem joinEntries_self {ps : List (Node × Node)} (hps : Entries.Keyed ps)
    (h : ∀ p ∈ ps, p.2.join p.2 = .ok p.2) : joinEntries ps ps = .ok ps := by
  induction ps with
  | nil => rfl
  | cons p ps ih =>
    obtain ⟨⟨hp, _⟩, hkeyed⟩ := Entries.keyed_cons_iff.1 hps
    obtain ⟨hself, hrest⟩ := List.forall_mem_cons.1 h
    have hrefl : p.1.eqv p.1 = true := eqv_refl hp.distinctKeys
    have hothers : ∀ q ∈ ps, q.1.eqv p.1 = false := hps.forall_tail_ne hp hrefl
    rw [joinEntries_cons hps hps, Entries.at?_cons, if_pos hrefl, Entries.without_cons,
      if_pos hrefl, Entries.without_of_forall hothers, ih hkeyed hrest]
    exact congrArg (· >>= fun w => .ok ((p.1, w) :: ps)) hself

/-- A document in which nothing is left to be settled is its own join, expirations included. -/
theorem join_self {a : Node} (ha : a.WellFormed) (hsettled : a.Everywhere IsUnsettled) :
    a.join a = .ok a := by
  induction a using induct_children with
  | step a ih =>
    have hentries : joinEntries a.fields a.fields = .ok a.fields :=
      joinEntries_self ha.keyed fun p hp => ih p.2 (snd_mem_children hp)
        (ha.child (snd_mem_children hp)) (hsettled.child (snd_mem_children hp))
    refine joined_iff.2 ?_
    cases a with
    | leaf e v =>
      have h := Joined.leaf e e (leaf_alike_refl v)
      rwa [Expiry.combine_self] at h
    | dict e t ps =>
      have h := Joined.dict e e t hentries
      rwa [Expiry.combine_self] at h
    | set e t es =>
      have hself : NodeSet.addAll es es = es := NodeSet.addAll_self fun n hn => ha.child hn
      have h := Joined.set e e t es es
      rwa [Expiry.combine_self, hself] at h
    | predicate e t as nt ps =>
      have h := Joined.predicate e e t nt nt as as hentries
      rwa [Expiry.combine_self,
        NodeSet.addAll_self fun n hn => ha.child (List.mem_append_left _ hn)] at h
    | identity e i us =>
      have h := Joined.identity e e i hentries
      rwa [Expiry.combine_self] at h
    | claim e x p s g us =>
      have hs : s.eqv s = true := eqv_refl (ha.child List.mem_cons_self).distinctKeys
      have h := Joined.claim e e x p hs g hentries
      rwa [Expiry.combine_self] at h
    | verify e s us =>
      have hs : s.eqv s = true := eqv_refl (ha.child List.mem_cons_self).distinctKeys
      have h := Joined.verify e e hs hentries
      rwa [Expiry.combine_self] at h
    | reachable e m vt vs ut uvs us =>
      have houtstanding : outstanding vs uvs = uvs :=
        List.filter_eq_self.2 fun c hc => by rw [hsettled.self c hc]; rfl
      have h := Joined.reachable e e m vt vt ut ut vs vs uvs uvs hentries
      rwa [Expiry.combine_self,
        NodeSet.addAll_self fun n hn =>
          ha.child (List.mem_append_left _ (List.mem_append_left _ hn)),
        NodeSet.addAll_self fun n hn =>
          ha.child (List.mem_append_left _ (List.mem_append_right _ hn)), houtstanding] at h

/-! ## Joins in a row -/

/-- Joins in a row may be put together from the left or from the right: both succeed with documents
that are the same but for the unverified candidates, or both fail. If equal candidates of the three
documents stand for the same address, both succeed with the same document, expirations included, or
both fail; and so they do if no candidate is a smart node. A document that holds no settled
candidate is its own join. -/
theorem join_assoc_and_idem {a b c : Node} (ha : a.WellFormed) (hb : b.WellFormed)
    (hc : c.WellFormed) :
    Agree ((a.join b >>= fun r => r.join c).map dropUnverified)
        ((b.join c >>= fun r => a.join r).map dropUnverified) ∧
      ((∀ x y : Node, x.IsCandidate a ∨ x.IsCandidate b ∨ x.IsCandidate c →
          y.IsCandidate a ∨ y.IsCandidate b ∨ y.IsCandidate c →
          x.eqv y = true → x.normalAddress? = y.normalAddress?) →
        Agree (a.join b >>= fun r => r.join c) (b.join c >>= fun r => a.join r)) ∧
      ((∀ x : Node, x.IsCandidate a ∨ x.IsCandidate b ∨ x.IsCandidate c → x.isSmart = false) →
        Agree (a.join b >>= fun r => r.join c) (b.join c >>= fun r => a.join r)) ∧
      (a.Everywhere IsUnsettled → a.join a = .ok a) := by
  refine ⟨agree_join_dropUnverified ha hb hc, fun hsame => ?_, fun hplain => ?_, join_self ha⟩
  · exact agree_join_join hsame ⟨ha, fun x hx => .inl hx⟩ ⟨hb, fun x hx => .inr (.inl hx)⟩
      ⟨hc, fun x hx => .inr (.inr hx)⟩
  · exact agree_join_join isAddressed_of_not_smart.address ⟨ha, fun x hx => hplain x (.inl hx)⟩
      ⟨hb, fun x hx => hplain x (.inr (.inl hx))⟩ ⟨hc, fun x hx => hplain x (.inr (.inr hx))⟩

theorem join_found (vs us vs' us' : List Node) : (found vs us).join (found vs' us') =
    .ok (found (NodeSet.addAll vs vs')
      (outstanding (NodeSet.addAll vs vs') (NodeSet.addAll us us'))) := by
  rw [found, found, join_reachable]
  rfl

theorem found_join_assoc : ((found [] [localPlain]).join (found [] [localText]) >>= fun r =>
    (found [localText] []).join r) = .ok (found [localText] []) ∧
    (found [localText] []).join (found [localText] []) = .ok (found [localText] []) := by
  have hjoin := join_assoc_and_idem (a := found [localText] []) (b := found [] [localPlain])
    (c := found [] [localText]) (by decide) (by decide) (by decide)
  refine ⟨?_, hjoin.2.2.2 ?_⟩
  · have hsettled : localPlain.isSettled [localText] = true ∧
      localText.isSettled [localText] = true := by decide +kernel
    refine (hjoin.2.1 ?_ _).1 ?_
    · simp only [isCandidate_found, List.not_mem_nil, List.mem_singleton, false_or]
      rintro x y (rfl | rfl) (rfl | rfl) _ <;> rfl
    · rw [join_found, ok_bind, join_found]
      simp [NodeSet.addAll, NodeSet.addTo, isIn, outstanding, hsettled]
  · decide +kernel

/-- A smart node is never settled, though the predicate that it is equal to may be: where the two
meet first decides whether the candidate stays. -/
theorem found_join_not_assoc :
    (found [localText] []).WellFormed ∧ (found [] [localPlain]).WellFormed ∧
      (found [] [localSmart]).WellFormed ∧
    ((found [localText] []).join (found [] [localPlain]) >>= fun r =>
      r.join (found [] [localSmart])) = .ok (found [localText] [localSmart]) ∧
    ((found [] [localPlain]).join (found [] [localSmart]) >>= fun r =>
      (found [localText] []).join r) = .ok (found [localText] []) ∧
    (found [localText] [localSmart]).eqv (found [localText] []) = false := by
  have hsame : localPlain.eqv localSmart = true := by decide
  have hplain : localPlain.isSettled [localText] = true := by decide +kernel
  have hsmart : localSmart.isSettled [localText] = false := by decide +kernel
  have hnone : localPlain.isSettled [] = false := by decide +kernel
  refine ⟨by decide, by decide, by decide, ?_, ?_, by decide⟩
  · rw [join_found, ok_bind, join_found]
    simp [NodeSet.addAll, NodeSet.addTo, isIn, outstanding, hplain, hsmart]
  · rw [join_found, ok_bind, join_found]
    simp [NodeSet.addAll, NodeSet.addTo, isIn, outstanding, hsame, hplain, hnone]

end Node

end PeerRecords
