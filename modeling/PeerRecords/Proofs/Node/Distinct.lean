import PeerRecords.Proofs.Node.PlainForm
import PeerRecords.Proofs.Outcome
import PeerRecords.Update

/-
  Lists without repeated nodes.
  What `areDistinct` says of a list survives whatever the program does to keys and elements: adding
  (`areDistinct_addAll`), refreshing (`areDistinct_refreshAll`) and folding entries in, which treats
  the keys as a refresh does (`map_fst_foldIn`). Keys that were checked are distinct
  (`checkKeys_eq_ok_iff`).
-/

namespace PeerRecords

open Node

theorem Node.areDistinct_append_singleton {ns : List Node} {n : Node} :
    areDistinct (ns ++ [n]) = true ↔ areDistinct ns = true ∧ ∀ m ∈ ns, m.eqv n = false := by
  rw [areDistinct_iff, areDistinct_iff, List.pairwise_append]
  simp

theorem Node.areDistinct_sublist {ms ns : List Node} (h : ms.Sublist ns)
    (hns : areDistinct ns = true) : areDistinct ms = true :=
  areDistinct_iff.2 ((areDistinct_iff.1 hns).sublist h)

theorem Node.isIn_eq_false {n : Node} {ns : List Node} :
    n.isIn ns = false ↔ ∀ m ∈ ns, m.eqv n = false := by
  simp [isIn]

/-! ## Adding -/

namespace NodeSet

theorem mem_addTo {x n : Node} {ns : List Node} (h : x ∈ addTo ns n) : x ∈ ns ∨ x = n := by
  unfold addTo at h
  split at h
  · exact .inl h
  · simpa using h

theorem areDistinct_addTo {ns : List Node} (n : Node) (h : areDistinct ns = true) :
    areDistinct (addTo ns n) = true := by
  unfold addTo
  split
  · exact h
  · rename_i hin
    exact areDistinct_append_singleton.2 ⟨h, isIn_eq_false.1 (by simpa using hin)⟩

theorem mem_addAll {x : Node} {acc ns : List Node} (h : x ∈ ns.foldl addTo acc) :
    x ∈ acc ∨ x ∈ ns := by
  induction ns generalizing acc with
  | nil => exact .inl h
  | cons n ns ih =>
    rcases ih h with h | h
    · rcases mem_addTo h with h | rfl
      · exact .inl h
      · exact .inr List.mem_cons_self
    · exact .inr (List.mem_cons_of_mem _ h)

theorem areDistinct_addAll {acc : List Node} (ns : List Node) (h : areDistinct acc = true) :
    areDistinct (ns.foldl addTo acc) = true := by
  induction ns generalizing acc with
  | nil => exact h
  | cons n ns ih => exact ih (areDistinct_addTo n h)

/-- Elements that are distinct are all added. -/
theorem addAll_of_areDistinct {acc ns : List Node} (h : areDistinct (acc ++ ns) = true) :
    ns.foldl addTo acc = acc ++ ns := by
  induction ns generalizing acc with
  | nil => exact (List.append_nil acc).symm
  | cons n ns ih =>
    have hsplit : acc ++ n :: ns = (acc ++ [n]) ++ ns := List.append_cons acc n ns
    rw [hsplit] at h ⊢
    have hacc := areDistinct_sublist (List.sublist_append_left _ _) h
    have hnew : n.isIn acc = false := isIn_eq_false.2 (areDistinct_append_singleton.1 hacc).2
    have hadd : addTo acc n = acc ++ [n] := by rw [addTo, hnew]; rfl
    rw [List.foldl_cons, hadd, ih h]

theorem addAll_nil {ns : List Node} (h : areDistinct ns = true) : ns.foldl addTo [] = ns :=
  addAll_of_areDistinct (by rw [List.nil_append, h])

/-! ## Refreshing -/

theorem mem_refresh {x n : Node} {ns : List Node} (h : x ∈ refresh n ns) :
    x = n ∨ ∃ m ∈ ns, ∃ e, x = m.withExpiry e := by
  induction ns with
  | nil => exact .inl (List.mem_singleton.1 h)
  | cons m ms ih =>
    have hsame : m = m.withExpiry m.expiry := by cases m <;> rfl
    unfold refresh at h
    split at h
    · rcases List.mem_cons.1 h with rfl | h
      · exact .inr ⟨m, List.mem_cons_self, _, rfl⟩
      · exact .inr ⟨x, List.mem_cons_of_mem _ h, x.expiry, by cases x <;> rfl⟩
    · rcases List.mem_cons.1 h with rfl | h
      · exact .inr ⟨x, List.mem_cons_self, _, hsame⟩
      · exact (ih h).imp id fun ⟨y, hy, he⟩ => ⟨y, List.mem_cons_of_mem _ hy, he⟩

theorem areDistinct_refresh {ns : List Node} (n : Node) (h : areDistinct ns = true) :
    areDistinct (refresh n ns) = true := by
  rw [areDistinct_iff] at h ⊢
  induction ns with
  | nil => exact List.pairwise_singleton _ _
  | cons m ms ih =>
    obtain ⟨hm, hms⟩ := List.pairwise_cons.1 h
    unfold refresh
    split
    · refine List.pairwise_cons.2 ⟨fun x hx => ?_, hms⟩
      rw [eqv_withExpiry_left]
      exact hm x hx
    · rename_i hmn
      refine List.pairwise_cons.2 ⟨fun x hx => ?_, ih hms⟩
      obtain rfl | ⟨y, hy, e, rfl⟩ := mem_refresh hx
      · simpa using hmn
      · rw [eqv_withExpiry_right]
        exact hm y hy

theorem areDistinct_refreshAll {old : List Node} (new : List Node) (h : areDistinct old = true) :
    areDistinct (refreshAll old new) = true := by
  unfold refreshAll
  induction new generalizing old with
  | nil => exact h
  | cons n new ih => exact ih (areDistinct_refresh n h)

/-- What holds of the nodes on both sides, whatever their expirations, holds after a refresh. -/
theorem forall_mem_refreshAll {P : Node → Prop} (hP : ∀ e n, P n → P (n.withExpiry e))
    {old new : List Node} (hold : ∀ n ∈ old, P n) (hnew : ∀ n ∈ new, P n) :
    ∀ n ∈ refreshAll old new, P n := by
  unfold refreshAll
  induction new generalizing old with
  | nil => exact hold
  | cons n new ih =>
    refine ih (fun x hx => ?_) fun x hx => hnew x (List.mem_cons_of_mem _ hx)
    obtain rfl | ⟨m, hm, e, rfl⟩ := mem_refresh hx
    · exact hnew x List.mem_cons_self
    · exact hP e m (hold m hm)

end NodeSet

/-! ## Checked keys -/

namespace Dict

theorem firstRepeat?_eq_none_iff {seen : List Node} {ps : List (Node × Node)} :
    firstRepeat? seen ps = none ↔
      areDistinct (ps.map (·.1)) = true ∧ ∀ m ∈ seen, ∀ p ∈ ps, m.eqv p.1 = false := by
  induction ps generalizing seen with
  | nil => simp [firstRepeat?, areDistinct]
  | cons p ps ih =>
    unfold firstRepeat?
    split
    · rename_i hin
      have hnot : ¬ ∀ m ∈ seen, m.eqv p.1 = false := by
        rw [← isIn_eq_false, hin]
        exact Bool.noConfusion
      simp only [reduceCtorEq, false_iff]
      rintro ⟨_, h⟩
      exact hnot fun m hm => h m hm p List.mem_cons_self
    · rename_i hin
      have hseen := isIn_eq_false.1 (Bool.eq_false_of_not_eq_true hin)
      rw [ih, areDistinct_iff, areDistinct_iff, List.map_cons, List.pairwise_cons]
      simp only [List.forall_mem_cons, List.forall_mem_map]
      constructor
      · rintro ⟨hps, hp, h⟩
        exact ⟨⟨hp, hps⟩, fun m hm => ⟨hseen m hm, h m hm⟩⟩
      · rintro ⟨⟨hp, hps⟩, h⟩
        exact ⟨hps, hp, fun m hm => (h m hm).2⟩

theorem checkKeys_eq_ok_iff {ps qs : List (Node × Node)} :
    checkKeys ps = .ok qs ↔ qs = ps ∧ areDistinct (ps.map (·.1)) = true := by
  have h : firstRepeat? [] ps = none ↔ areDistinct (ps.map (·.1)) = true := by
    rw [firstRepeat?_eq_none_iff]
    simp
  unfold checkKeys
  rw [← h]
  cases firstRepeat? [] ps <;> simp [eq_comm]

end Dict

/-! ## Folding entries in -/

/-- Folding an entry in treats the keys as a refresh does. -/
theorem Entries.map_fst_foldIn {k v : Node} {step : Node → Except Error Node}
    {ps qs : List (Node × Node)} (h : foldIn k v step ps = .ok qs) :
    qs.map (·.1) = NodeSet.refresh k (ps.map (·.1)) := by
  induction ps generalizing qs with
  | nil =>
    cases h
    rfl
  | cons p ps ih =>
    unfold foldIn at h
    rw [List.map_cons, NodeSet.refresh]
    split at h
    · rename_i hk
      obtain ⟨w, _, hw⟩ := bind_eq_ok.1 h
      cases hw
      simp [hk]
    · rename_i hk
      obtain ⟨rs, hrs, hw⟩ := bind_eq_ok.1 h
      cases hw
      simp [hk, ih hrs]

theorem Node.map_fst_updateEntries {ps qs rs : List (Node × Node)}
    (h : updateEntries ps qs = .ok rs) :
    rs.map (·.1) = NodeSet.refreshAll (ps.map (·.1)) (qs.map (·.1)) := by
  induction qs generalizing ps with
  | nil =>
    cases h
    rfl
  | cons q qs ih =>
    obtain ⟨k, v⟩ := q
    rw [updateEntries] at h
    obtain ⟨us, hus, h⟩ := bind_eq_ok.1 h
    rw [ih h, Entries.map_fst_foldIn hus]
    rfl

/-- What holds of the keys of both sides, whatever their expirations, holds of the updated keys. -/
theorem Node.forall_fst_updateEntries {P : Node → Prop} (hP : ∀ e n, P n → P (n.withExpiry e))
    {ps qs rs : List (Node × Node)} (h : updateEntries ps qs = .ok rs) (hps : ∀ p ∈ ps, P p.1)
    (hqs : ∀ q ∈ qs, P q.1) : ∀ r ∈ rs, P r.1 := by
  have hkeys := NodeSet.forall_mem_refreshAll hP (List.forall_mem_map.2 hps)
    (List.forall_mem_map.2 hqs)
  rw [← map_fst_updateEntries h] at hkeys
  exact List.forall_mem_map.1 hkeys

end PeerRecords
