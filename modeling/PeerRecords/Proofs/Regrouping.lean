import PeerRecords.Proofs.Idempotence

/-
  Sets, arguments and entries that are taken in one after the other.
  Taking in a list that took in another is taking in the one and then the other (`refreshAll_assoc`,
  `updateEntries_assoc`). Both go by one step: what is folded into the list that is taken in may be
  folded in after it is taken in (`refreshAll_refresh`, `updateEntries_foldIn`). If the list holds
  an equal node, the step meets it there, and the two come to be one (`refresh_refresh_of_eqv`,
  `foldIn_foldIn_of_eqv`); what is there may then be refreshed before what is left of the list or
  after it (`refresh_refreshAll_of_isIn`, `updateEntries_foldIn_comm`). Elements and arguments may
  repeat; the keys that are taken in may not.
-/

namespace PeerRecords

open Node

theorem Expiry.combine_assoc (a b c : Expiry) :
    combine (combine a b) c = combine a (combine b c) := by
  cases a <;> cases b <;> cases c <;> simp [combine, max_assoc]

theorem Expiry.combine_comm (a b : Expiry) : combine a b = combine b a := by
  cases a <;> cases b <;> simp [combine, max_comm]

namespace Node

theorem refreshedBy_refreshedBy (m n x : Node) :
    (m.refreshedBy n).refreshedBy x = m.refreshedBy (n.refreshedBy x) := by
  simp [refreshedBy, Expiry.combine_assoc]

theorem refreshedBy_comm (m n x : Node) :
    (m.refreshedBy n).refreshedBy x = (m.refreshedBy x).refreshedBy n := by
  simp [refreshedBy, Expiry.combine_assoc, Expiry.combine_comm n.expiry]

theorem WellFormed.refreshedBy {m : Node} (h : m.WellFormed) (n : Node) :
    (m.refreshedBy n).WellFormed := h.withExpiry _

end Node

/-! ## Sets and arguments -/

namespace NodeSet

theorem wellFormed_refresh {n : Node} {ns : List Node} (hn : n.WellFormed)
    (hns : ∀ m ∈ ns, m.WellFormed) : ∀ m ∈ refresh n ns, m.WellFormed := by
  intro m hm
  obtain rfl | ⟨x, hx, e, rfl⟩ := mem_refresh hm
  · exact hn
  · exact (hns x hx).withExpiry e

/-- What is equal to a node that was refreshed is there. -/
theorem isIn_refresh_of_eqv {u c : Node} (hu : u.WellFormed) (hc : c.WellFormed)
    (huc : u.eqv c = true) {ns : List Node} (hns : ∀ n ∈ ns, n.WellFormed) :
    c.isIn (refresh u ns) = true := by
  obtain ⟨m, hm, hmu⟩ := List.any_eq_true.1 (isIn_refresh_self (eqv_refl hu.distinctKeys) ns)
  exact List.any_eq_true.2 ⟨m, hm, eqv_trans (wellFormed_refresh hu hns m hm) hu hc hmu huc⟩

/-- Two equal nodes refresh one after the other as the first does refreshed by the second. -/
theorem refresh_refresh_of_eqv {u c : Node} (hu : u.WellFormed) (hc : c.WellFormed)
    (huc : u.eqv c = true) {ns : List Node} (hns : ∀ n ∈ ns, n.WellFormed) :
    refresh c (refresh u ns) = refresh (u.refreshedBy c) ns := by
  induction ns with
  | nil =>
    rw [refresh, refresh_cons, if_pos huc]
    rfl
  | cons n ns ih =>
    have heq := eqv_congr_right (hns n List.mem_cons_self) hu hc huc
    rw [refresh_cons, refresh_cons, eqv_refreshedBy_right]
    by_cases hn : n.eqv u = true
    · rw [if_pos hn, if_pos hn, refresh_cons, eqv_refreshedBy_left, ← heq, if_pos hn,
        refreshedBy_refreshedBy]
    · rw [if_neg hn, if_neg hn, refresh_cons, ← heq, if_neg hn,
        ih fun x hx => hns x (List.mem_cons_of_mem _ hx)]

/-- A node that is there may be refreshed before another or after it. -/
theorem refresh_comm_of_isIn (u : Node) {c : Node} {ns : List Node} (hc : c.isIn ns = true) :
    refresh c (refresh u ns) = refresh u (refresh c ns) := by
  induction ns with
  | nil => cases hc
  | cons n ns ih =>
    rw [refresh_cons u, refresh_cons c n]
    by_cases hnu : n.eqv u = true
    · by_cases hnc : n.eqv c = true
      · rw [if_pos hnu, if_pos hnc, refresh_cons, refresh_cons, eqv_refreshedBy_left,
          eqv_refreshedBy_left, if_pos hnu, if_pos hnc, refreshedBy_comm]
      · rw [if_pos hnu, if_neg hnc, refresh_cons, refresh_cons, eqv_refreshedBy_left, if_pos hnu,
          if_neg hnc]
    · by_cases hnc : n.eqv c = true
      · rw [if_neg hnu, if_pos hnc, refresh_cons, refresh_cons, eqv_refreshedBy_left, if_pos hnc,
          if_neg hnu]
      · have hns : c.isIn ns = true := by simpa [isIn, hnc] using hc
        rw [if_neg hnu, if_neg hnc, refresh_cons, refresh_cons, if_neg hnu, if_neg hnc, ih hns]

theorem refresh_refreshAll_of_isIn {c : Node} {ns : List Node} (hc : c.isIn ns = true)
    (us : List Node) : refresh c (refreshAll ns us) = refreshAll (refresh c ns) us := by
  induction us generalizing ns with
  | nil => rfl
  | cons u us ih =>
    rw [refreshAll_cons, refreshAll_cons, ih (isIn_refresh u hc), refresh_comm_of_isIn u hc]

/-- A node refreshed in what is taken in is refreshed in what takes it in. -/
theorem refreshAll_refresh {c : Node} (hc : c.WellFormed) {us ns : List Node}
    (hus : ∀ u ∈ us, u.WellFormed) (hns : ∀ n ∈ ns, n.WellFormed) :
    refreshAll ns (refresh c us) = refresh c (refreshAll ns us) := by
  induction us generalizing ns with
  | nil => rfl
  | cons u us ih =>
    have hu := hus u List.mem_cons_self
    rw [refresh_cons]
    by_cases huc : u.eqv c = true
    · rw [if_pos huc, refreshAll_cons, refreshAll_cons, ← refresh_refresh_of_eqv hu hc huc hns,
        refresh_refreshAll_of_isIn (isIn_refresh_of_eqv hu hc huc hns)]
    · rw [if_neg huc, refreshAll_cons, refreshAll_cons]
      exact ih (fun x hx => hus x (List.mem_cons_of_mem _ hx)) (wellFormed_refresh hu hns)

theorem wellFormed_refreshAll {ns us : List Node} (hns : ∀ n ∈ ns, n.WellFormed)
    (hus : ∀ u ∈ us, u.WellFormed) : ∀ m ∈ refreshAll ns us, m.WellFormed :=
  forall_mem_refreshAll (fun e _ hn => hn.withExpiry e) hns hus

/-- What was in the nodes that are taken in is there afterwards. -/
theorem isIn_refreshAll_of_isIn {ns us : List Node} (hns : ∀ n ∈ ns, n.WellFormed)
    (hus : ∀ u ∈ us, u.WellFormed) {x : Node} (hx : x.WellFormed) (h : x.isIn us = true) :
    x.isIn (refreshAll ns us) = true := by
  obtain ⟨u, hu, hux⟩ := List.any_eq_true.1 h
  have hin : u.isIn (refreshAll ns us) = true :=
    isIn_refreshAll_of_mem (fun n hn => eqv_refl (hus n hn).distinctKeys) hu
  obtain ⟨m, hm, hmu⟩ := List.any_eq_true.1 hin
  have hmwf := wellFormed_refreshAll hns hus m hm
  exact List.any_eq_true.2 ⟨m, hm, eqv_trans hmwf (hus u hu) hx hmu hux⟩

/-- A node is in the refreshed list just if it is in one of the two. -/
theorem isIn_refreshAll_iff {x : Node} (hx : x.WellFormed) {xs ys : List Node}
    (hxs : ∀ n ∈ xs, n.WellFormed) (hys : ∀ n ∈ ys, n.WellFormed) :
    x.isIn (refreshAll xs ys) = true ↔ x.isIn xs = true ∨ x.isIn ys = true := by
  constructor
  · intro h
    obtain ⟨z, hz, hzx⟩ := List.any_eq_true.1 h
    have hexpiry : ∀ (e : Expiry) (n : Node),
        (n.eqv x = true → x.isIn xs = true ∨ x.isIn ys = true) →
        (n.withExpiry e).eqv x = true → x.isIn xs = true ∨ x.isIn ys = true := by
      intro e n hn
      rwa [eqv_withExpiry_left]
    exact forall_mem_refreshAll hexpiry (fun n hn h => .inl (List.any_eq_true.2 ⟨n, hn, h⟩))
      (fun n hn h => .inr (List.any_eq_true.2 ⟨n, hn, h⟩)) z hz hzx
  · rintro (h | h)
    · exact isIn_refreshAll ys h
    · exact isIn_refreshAll_of_isIn hxs hys hx h

theorem refreshAll_assoc {ns us cs : List Node} (hns : ∀ n ∈ ns, n.WellFormed)
    (hus : ∀ u ∈ us, u.WellFormed) (hcs : ∀ c ∈ cs, c.WellFormed) :
    refreshAll (refreshAll ns us) cs = refreshAll ns (refreshAll us cs) := by
  induction cs generalizing us with
  | nil => rfl
  | cons c cs ih =>
    have hc := hcs c List.mem_cons_self
    rw [refreshAll_cons, refreshAll_cons, ← refreshAll_refresh hc hus hns]
    exact ih (wellFormed_refresh hc hus) fun x hx => hcs x (List.mem_cons_of_mem _ hx)

end NodeSet

/-! ## Entries -/

namespace Entries

/-- Two entries with equal keys, one after the other, are the first with the second folded in. -/
theorem foldIn_foldIn_of_eqv {k l v w : Node} (hk : k.WellFormed) (hl : l.WellFormed)
    (hkl : k.eqv l = true) {ps : List (Node × Node)} (hps : ∀ p ∈ ps, p.1.WellFormed)
    (hassoc : ∀ p ∈ ps, Agree (p.2.update v >>= fun r => r.update w)
      (v.update w >>= fun r => p.2.update r)) :
    Agree (foldIn k v (fun old => old.update v) ps >>= foldIn l w fun old => old.update w)
      (v.update w >>= fun x => foldIn (k.refreshedBy l) x (fun old => old.update x) ps) := by
  induction ps with
  | nil =>
    simp only [foldIn, ok_bind, hkl, if_true]
    exact .refl _
  | cons p ps ih =>
    have heq := eqv_congr_right (hps p List.mem_cons_self) hk hl hkl
    cases hp : p.1.eqv k with
    | true =>
      rw [hp] at heq
      have hhead := (hassoc p List.mem_cons_self).bind_left
        fun x => .ok ((p.1.refreshedBy (k.refreshedBy l), x) :: ps)
      simpa only [foldIn_cons, eqv_refreshedBy_left, eqv_refreshedBy_right, hp, ← heq, if_true,
        bind_assoc, ok_bind, refreshedBy_refreshedBy] using hhead
    | false =>
      rw [hp] at heq
      have hrest := (ih (fun q hq => hps q (List.mem_cons_of_mem _ hq))
        fun q hq => hassoc q (List.mem_cons_of_mem _ hq)).bind_left fun rs => .ok (p :: rs)
      simpa only [foldIn_cons, eqv_refreshedBy_right, hp, ← heq, Bool.false_eq_true, if_false,
        bind_assoc, ok_bind] using hrest

/-- An entry whose key is there may be folded in before one with another key or after it. -/
theorem foldIn_comm {k l v w : Node} {step step' : Node → Except Error Node}
    {ps : List (Node × Node)} (hother : ∀ p ∈ ps, p.1.eqv k = true → p.1.eqv l = false)
    (hin : l.isIn (ps.map (·.1)) = true) :
    Agree (foldIn k v step ps >>= foldIn l w step') (foldIn l w step' ps >>= foldIn k v step) := by
  induction ps with
  | nil => cases hin
  | cons p ps ih =>
    cases hk : p.1.eqv k with
    | true =>
      have hl := hother p List.mem_cons_self hk
      simp only [foldIn_cons, eqv_refreshedBy_left, hk, hl, Bool.false_eq_true, if_true, if_false,
        bind_assoc, ok_bind]
      exact .bind_comm _ _ _
    | false =>
      cases hl : p.1.eqv l with
      | true =>
        simp only [foldIn_cons, eqv_refreshedBy_left, hk, hl, Bool.false_eq_true, if_true, if_false,
          bind_assoc, ok_bind]
        exact .bind_comm _ _ _
      | false =>
        have hps : l.isIn (ps.map (·.1)) = true := by simpa [isIn, hl] using hin
        have hrest := (ih (fun q hq => hother q (List.mem_cons_of_mem p hq)) hps).bind_left
          fun rs => .ok (p :: rs)
        simpa only [foldIn_cons, hk, hl, Bool.false_eq_true, if_false, bind_assoc, ok_bind]
          using hrest

theorem forall_snd_foldIn {P : Node → Prop} {k v : Node} {step : Node → Except Error Node}
    {ps rs : List (Node × Node)} (hv : P v) (hps : ∀ p ∈ ps, P p.2)
    (hstep : ∀ a w, P a → step a = .ok w → P w) (h : foldIn k v step ps = .ok rs) :
    ∀ p ∈ rs, P p.2 := by
  induction ps generalizing rs with
  | nil =>
    cases h
    exact List.forall_mem_singleton.2 hv
  | cons p ps ih =>
    obtain ⟨hp, hrest⟩ := List.forall_mem_cons.1 hps
    rw [foldIn_cons] at h
    split at h
    · obtain ⟨w, hw, h⟩ := bind_eq_ok.1 h
      cases h
      exact List.forall_mem_cons.2 ⟨hstep p.2 w hp hw, hrest⟩
    · obtain ⟨qs, hqs, h⟩ := bind_eq_ok.1 h
      cases h
      exact List.forall_mem_cons.2 ⟨hp, ih hrest hqs⟩

end Entries

namespace Node

theorem forall_snd_updateEntries {P : Node → Prop} {ps qs rs : List (Node × Node)}
    (hps : ∀ p ∈ ps, P p.2) (hqs : ∀ q ∈ qs, P q.2)
    (hstep : ∀ q ∈ qs, ∀ a w, P a → a.update q.2 = .ok w → P w)
    (h : updateEntries ps qs = .ok rs) : ∀ p ∈ rs, P p.2 := by
  induction qs generalizing ps with
  | nil =>
    cases h
    exact hps
  | cons q qs ih =>
    obtain ⟨hq, hrest⟩ := List.forall_mem_cons.1 hqs
    obtain ⟨hstepq, hsteps⟩ := List.forall_mem_cons.1 hstep
    obtain ⟨us, hus, h⟩ := bind_eq_ok.1 h
    exact ih (Entries.forall_snd_foldIn hq hps hstepq hus) hrest hsteps h

/-- An entry whose key is there may be folded in before entries with other keys or after them. -/
theorem updateEntries_foldIn_comm {k v : Node} {step : Node → Except Error Node} (hk : k.WellFormed)
    {ps qs : List (Node × Node)} (hps : ∀ p ∈ ps, p.1.WellFormed) (hqs : ∀ q ∈ qs, q.1.WellFormed)
    (hother : ∀ q ∈ qs, q.1.eqv k = false) (hin : k.isIn (ps.map (·.1)) = true) :
    Agree (Entries.foldIn k v step ps >>= fun us => updateEntries us qs)
      (updateEntries ps qs >>= Entries.foldIn k v step) := by
  induction qs generalizing ps with
  | nil => exact .of_eq (bind_pure (Entries.foldIn k v step ps))
  | cons q qs ih =>
    obtain ⟨hq, hqs⟩ := List.forall_mem_cons.1 hqs
    obtain ⟨hqk, hother⟩ := List.forall_mem_cons.1 hother
    have hapart : ∀ p ∈ ps, p.1.eqv q.1 = true → p.1.eqv k = false := fun p hp hpq =>
      (eqv_congr_left hk (hps p hp) hq hpq).trans hqk
    calc (Entries.foldIn k v step ps >>= fun us => updateEntries us (q :: qs))
      _ = (Entries.foldIn k v step ps >>= Entries.foldIn q.1 q.2 fun old => old.update q.2) >>=
          fun us => updateEntries us qs := (bind_assoc _ _ _).symm
      Agree _ ((Entries.foldIn q.1 q.2 (fun old => old.update q.2) ps >>=
          Entries.foldIn k v step) >>= fun us => updateEntries us qs) :=
        (Entries.foldIn_comm hapart hin).symm.bind_left _
      _ = Entries.foldIn q.1 q.2 (fun old => old.update q.2) ps >>= fun us =>
          Entries.foldIn k v step us >>= fun xs => updateEntries xs qs := bind_assoc _ _ _
      Agree _ (Entries.foldIn q.1 q.2 (fun old => old.update q.2) ps >>= fun us =>
          updateEntries us qs >>= Entries.foldIn k v step) := by
        refine .bind_right fun us hus => ?_
        refine ih (forall_fst_foldIn hps hq hus) hqs hother ?_
        rw [Entries.map_fst_foldIn hus]
        exact NodeSet.isIn_refresh q.1 hin
      _ = updateEntries ps (q :: qs) >>= Entries.foldIn k v step := (bind_assoc _ _ _).symm

/-- An entry folded in what is taken in is folded in what takes it in. -/
theorem updateEntries_foldIn {P : Node → Prop}
    (hP : ∀ {a b r : Node}, P a → P b → a.update b = .ok r → P r) {k v : Node} (hk : k.WellFormed)
    (hassoc : ∀ a b : Node, P a → P b →
      Agree (a.update b >>= fun r => r.update v) (b.update v >>= fun r => a.update r))
    {ps qs : List (Node × Node)} (hps : ∀ p ∈ ps, p.1.WellFormed ∧ P p.2)
    (hqs : ∀ q ∈ qs, q.1.WellFormed ∧ P q.2) (hkeys : areDistinct (qs.map (·.1)) = true) :
    Agree (Entries.foldIn k v (fun old => old.update v) qs >>= fun us => updateEntries ps us)
      (updateEntries ps qs >>= Entries.foldIn k v fun old => old.update v) := by
  induction qs generalizing ps with
  | nil => exact .of_eq (bind_pure (Entries.foldIn k v (fun old => old.update v) ps))
  | cons q qs ih =>
    obtain ⟨⟨hq, hqP⟩, hqs⟩ := List.forall_mem_cons.1 hqs
    rw [areDistinct_iff, List.map_cons, List.pairwise_cons] at hkeys
    have hkept : ∀ {us}, Entries.foldIn q.1 q.2 (fun old => old.update q.2) ps = .ok us →
        ∀ p ∈ us, p.1.WellFormed ∧ P p.2 := by
      intro us hus p hp
      refine ⟨forall_fst_foldIn (fun p hp => (hps p hp).1) hq hus p hp, ?_⟩
      exact Entries.forall_snd_foldIn hqP (fun p hp => (hps p hp).2)
        (fun a w ha hw => hP ha hqP hw) hus p hp
    cases hqk : q.1.eqv k with
    | true =>
      have hothers : ∀ x ∈ qs, x.1.eqv k = false := by
        intro x hx
        rw [← eqv_congr_right (hqs x hx).1 hq hk hqk, eqv_comm (hqs x hx).1 hq]
        exact hkeys.1 x.1 (List.mem_map_of_mem hx)
      calc
        (Entries.foldIn k v (fun old => old.update v) (q :: qs) >>= fun us => updateEntries ps us)
        _ = (q.2.update v >>= fun x =>
            Entries.foldIn (q.1.refreshedBy k) x (fun old => old.update x) ps) >>=
            fun us => updateEntries us qs := by
          simp only [Entries.foldIn_cons, hqk, if_true, bind_assoc, ok_bind, updateEntries_cons]
        Agree _ ((Entries.foldIn q.1 q.2 (fun old => old.update q.2) ps >>=
            Entries.foldIn k v fun old => old.update v) >>= fun us => updateEntries us qs) := by
          refine (Agree.symm ?_).bind_left _
          exact Entries.foldIn_foldIn_of_eqv hq hk hqk (fun p hp => (hps p hp).1)
            fun p hp => hassoc p.2 q.2 (hps p hp).2 hqP
        _ = Entries.foldIn q.1 q.2 (fun old => old.update q.2) ps >>= fun us =>
            Entries.foldIn k v (fun old => old.update v) us >>= fun xs => updateEntries xs qs :=
          bind_assoc _ _ _
        Agree _ (Entries.foldIn q.1 q.2 (fun old => old.update q.2) ps >>= fun us =>
            updateEntries us qs >>= Entries.foldIn k v fun old => old.update v) := by
          refine .bind_right fun us hus => ?_
          refine updateEntries_foldIn_comm hk (fun p hp => (hkept hus p hp).1)
            (fun x hx => (hqs x hx).1) hothers ?_
          rw [Entries.map_fst_foldIn hus]
          exact NodeSet.isIn_refresh_of_eqv hq hk hqk
            (List.forall_mem_map.2 fun p hp => (hps p hp).1)
        _ = updateEntries ps (q :: qs) >>= Entries.foldIn k v fun old => old.update v :=
          (bind_assoc _ _ _).symm
    | false =>
      calc
        (Entries.foldIn k v (fun old => old.update v) (q :: qs) >>= fun us => updateEntries ps us)
        _ = Entries.foldIn k v (fun old => old.update v) qs >>= fun us =>
            Entries.foldIn q.1 q.2 (fun old => old.update q.2) ps >>= fun xs =>
            updateEntries xs us := by
          simp only [Entries.foldIn_cons, hqk, Bool.false_eq_true, if_false, bind_assoc, ok_bind,
            updateEntries_cons]
        Agree _ (Entries.foldIn q.1 q.2 (fun old => old.update q.2) ps >>= fun xs =>
            Entries.foldIn k v (fun old => old.update v) qs >>= fun us => updateEntries xs us) :=
          .bind_comm _ _ _
        Agree _ (Entries.foldIn q.1 q.2 (fun old => old.update q.2) ps >>= fun xs =>
            updateEntries xs qs >>= Entries.foldIn k v fun old => old.update v) :=
          .bind_right fun xs hxs => ih (hkept hxs) hqs (areDistinct_iff.2 hkeys.2)
        _ = updateEntries ps (q :: qs) >>= Entries.foldIn k v fun old => old.update v :=
          (bind_assoc _ _ _).symm

theorem updateEntries_assoc {P : Node → Prop}
    (hP : ∀ {a b r : Node}, P a → P b → a.update b = .ok r → P r)
    {ps qs rs : List (Node × Node)} (hps : ∀ p ∈ ps, p.1.WellFormed ∧ P p.2)
    (hqs : ∀ q ∈ qs, q.1.WellFormed ∧ P q.2) (hkeys : areDistinct (qs.map (·.1)) = true)
    (hrs : ∀ r ∈ rs, r.1.WellFormed ∧ P r.2)
    (hassoc : ∀ r ∈ rs, ∀ a b : Node, P a → P b →
      Agree (a.update b >>= fun x => x.update r.2) (b.update r.2 >>= fun x => a.update x)) :
    Agree (updateEntries ps qs >>= fun us => updateEntries us rs)
      (updateEntries qs rs >>= fun us => updateEntries ps us) := by
  induction rs generalizing qs with
  | nil => exact .of_eq (bind_pure (updateEntries ps qs))
  | cons r rs ih =>
    obtain ⟨⟨hr, hrP⟩, hrs⟩ := List.forall_mem_cons.1 hrs
    obtain ⟨hassocr, hassoc⟩ := List.forall_mem_cons.1 hassoc
    calc (updateEntries ps qs >>= fun us => updateEntries us (r :: rs))
      _ = (updateEntries ps qs >>= Entries.foldIn r.1 r.2 fun old => old.update r.2) >>=
          fun us => updateEntries us rs := (bind_assoc _ _ _).symm
      Agree _ ((Entries.foldIn r.1 r.2 (fun old => old.update r.2) qs >>=
          fun us => updateEntries ps us) >>= fun us => updateEntries us rs) :=
        (updateEntries_foldIn hP hr hassocr hps hqs hkeys).symm.bind_left _
      _ = Entries.foldIn r.1 r.2 (fun old => old.update r.2) qs >>= fun us =>
          updateEntries ps us >>= fun xs => updateEntries xs rs := bind_assoc _ _ _
      Agree _ (Entries.foldIn r.1 r.2 (fun old => old.update r.2) qs >>= fun us =>
          updateEntries us rs >>= fun xs => updateEntries ps xs) := by
        refine .bind_right fun us hus => ih (fun q hq => ?_) ?_ hrs hassoc
        · refine ⟨forall_fst_foldIn (fun q hq => (hqs q hq).1) hr hus q hq, ?_⟩
          exact Entries.forall_snd_foldIn hrP (fun q hq => (hqs q hq).2)
            (fun a w ha hw => hP ha hrP hw) hus q hq
        · rw [Entries.map_fst_foldIn hus]
          exact NodeSet.areDistinct_refresh r.1 hkeys
      _ = updateEntries qs (r :: rs) >>= fun us => updateEntries ps us := (bind_assoc _ _ _).symm

end Node

end PeerRecords
