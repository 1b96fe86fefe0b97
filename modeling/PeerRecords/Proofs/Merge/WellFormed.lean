import Mathlib
import PeerRecords.Proofs.Merge.Entries

/-
  Merges of well-formed documents.
  Well-formed entries (`AreWellFormed`) stay so in a merge, since the right ones that are added have
  keys that the left ones have not (`Keyed.append_unmatched`). A resolver may have effects of
  its own, so what a merge gives is told in whatever monad it runs in: with a resolver that makes
  well-formed documents of well-formed ones, each result is well-formed (`satisfiesM_merge`).
-/

namespace PeerRecords

open Node

/-! ## Well-formedness by kinds of nodes -/

namespace Entries

/-- The keys are pairwise unequal, and keys and values are well-formed. -/
structure AreWellFormed (ps : List (Node × Node)) : Prop extends Keyed ps where
  values : ∀ p ∈ ps, p.2.WellFormed

theorem areWellFormed_iff {ps : List (Node × Node)} : AreWellFormed ps ↔
    areDistinct (ps.map (·.1)) = true ∧ ∀ c ∈ entryNodes ps, c.WellFormed := by
  rw [forall_entryNodes]
  constructor
  · exact fun h => ⟨h.distinct, fun p hp => ⟨h.wellFormed p hp, h.values p hp⟩⟩
  · exact fun h => ⟨⟨fun p hp => (h.2 p hp).1, h.1⟩, fun p hp => (h.2 p hp).2⟩

end Entries

open Entries (AreWellFormed Keyed areWellFormed_iff)

namespace NodeSet

/-- The elements are pairwise unequal and well-formed. -/
structure AreWellFormed (es : List Node) : Prop where
  distinct : areDistinct es = true
  nodes : ∀ c ∈ es, c.WellFormed

theorem AreWellFormed.sublist {es fs : List Node} (h : es.Sublist fs) (hfs : AreWellFormed fs) :
    AreWellFormed es :=
  ⟨areDistinct_sublist h hfs.distinct, fun c hc => hfs.nodes c (h.subset hc)⟩

theorem AreWellFormed.addAll {es fs : List Node} (hes : AreWellFormed es)
    (hfs : ∀ c ∈ fs, c.WellFormed) : AreWellFormed (addAll es fs) :=
  ⟨areDistinct_addAll fs hes.distinct, wellFormed_addAll hes.nodes hfs⟩

end NodeSet

namespace Node

section

variable {e : Expiry}

theorem wellFormed_dict_iff {t : String} {ps : List (Node × Node)} :
    (dict e t ps).WellFormed ↔ AreWellFormed ps := by
  rw [wellFormed_iff_children, areWellFormed_iff]
  rfl

theorem wellFormed_set_iff {t : String} {es : List Node} :
    (set e t es).WellFormed ↔ NodeSet.AreWellFormed es := by
  rw [wellFormed_iff_children]
  exact ⟨fun h => ⟨h.1, h.2⟩, fun h => ⟨h.1, h.2⟩⟩

theorem wellFormed_predicate_iff {t nt : String} {as : List Node} {ps : List (Node × Node)} :
    (predicate e t as nt ps).WellFormed ↔ (∀ c ∈ as, c.WellFormed) ∧ AreWellFormed ps := by
  rw [wellFormed_iff_children, children, List.forall_mem_append, areWellFormed_iff]
  exact and_left_comm

theorem wellFormed_identity_iff {i : Identity} {us : List (Node × Node)} :
    (identity e i us).WellFormed ↔ AreWellFormed us := by
  rw [wellFormed_iff_children, areWellFormed_iff]
  rfl

theorem wellFormed_claim_iff {a : Assurance} {p : PeerId} {s : Node} {g : List UInt8}
    {us : List (Node × Node)} :
    (claim e a p s g us).WellFormed ↔ s.WellFormed ∧ AreWellFormed us := by
  rw [wellFormed_iff_children, children, List.forall_mem_cons, areWellFormed_iff]
  exact and_left_comm

theorem wellFormed_verify_iff {s : Node} {us : List (Node × Node)} :
    (verify e s us).WellFormed ↔ s.WellFormed ∧ AreWellFormed us := by
  rw [wellFormed_iff_children, children, List.forall_mem_cons, areWellFormed_iff]
  exact and_left_comm

theorem wellFormed_reachable_iff {m : ProbeMode} {vt ut : String} {vs uvs : List Node}
    {us : List (Node × Node)} : (reachable e m vt vs ut uvs us).WellFormed ↔
      NodeSet.AreWellFormed vs ∧ NodeSet.AreWellFormed uvs ∧ AreWellFormed us := by
  rw [wellFormed_iff_children, children, List.forall_mem_append, List.forall_mem_append,
    isLocallyWellFormed, Bool.and_eq_true, Bool.and_eq_true, areWellFormed_iff]
  constructor
  · rintro ⟨⟨⟨hvs, huvs⟩, hus⟩, ⟨hvs', huvs'⟩, hus'⟩
    exact ⟨⟨hvs, hvs'⟩, ⟨huvs, huvs'⟩, hus, hus'⟩
  · rintro ⟨⟨hvs, hvs'⟩, ⟨huvs, huvs'⟩, hus, hus'⟩
    exact ⟨⟨⟨hvs, huvs⟩, hus⟩, ⟨hvs', huvs'⟩, hus'⟩

end

theorem WellFormed.fields {n : Node} (h : n.WellFormed) : AreWellFormed n.fields := by
  refine areWellFormed_iff.2 ⟨?_, fun c hc => h.child (entryNodes_fields_subset n hc)⟩
  rw [← keys_eq_map]
  exact h.distinctKeys.self

end Node

/-! ## Entries of a merge -/

namespace Entries

/-- Merged left entries have the left keys, and the right ones that are added have others. -/
theorem Keyed.append_unmatched {ps qs rs : List (Node × Node)} (hps : Keyed ps) (hqs : Keyed qs)
    (hkeys : rs.map (·.1) = ps.map (·.1)) : Keyed (rs ++ unmatched ps qs) := by
  have hadded : Keyed (unmatched ps qs) := hqs.sublist List.filter_sublist
  constructor
  · refine List.forall_mem_append.2 ⟨?_, hadded.wellFormed⟩
    have hwf := List.forall_mem_map.2 hps.wellFormed
    rw [← hkeys] at hwf
    exact List.forall_mem_map.1 hwf
  · rw [List.map_append, hkeys, areDistinct_iff, List.pairwise_append]
    refine ⟨areDistinct_iff.1 hps.distinct, areDistinct_iff.1 hadded.distinct, ?_⟩
    rw [List.forall_mem_map]
    intro p hp
    rw [List.forall_mem_map]
    intro q hq
    exact at?_eq_none_iff.1 (Option.isNone_iff_eq_none.1 (List.mem_filter.1 hq).2) p hp

end Entries

namespace Node

variable {m : Type → Type} [Monad m] [LawfulMonad m] {resolve : Resolver m}

/-- The merged left entries keep their keys, and have the values that a merge gives or their own. -/
theorem satisfiesM_mergeEntries {P : Node → Prop} {ps qs : List (Node × Node)}
    (hps : ∀ p ∈ ps, P p.2)
    (hmerge : ∀ p ∈ ps, ∀ q ∈ qs, SatisfiesM P (merge resolve p.2 q.2)) :
    SatisfiesM (fun rs => rs.map (·.1) = ps.map (·.1) ∧ ∀ r ∈ rs, P r.2)
      (mergeEntries resolve ps qs) := by
  induction ps with
  | nil => exact .pure ⟨rfl, fun _ hr => absurd hr List.not_mem_nil⟩
  | cons p ps ih =>
    obtain ⟨k, v⟩ := p
    obtain ⟨hv, hps⟩ := List.forall_mem_cons.1 hps
    obtain ⟨hmergev, hmerge⟩ := List.forall_mem_cons.1 hmerge
    have hrest : ∀ w, P w → SatisfiesM (fun rs => rs.map (·.1) = ((k, v) :: ps).map (·.1) ∧
        ∀ r ∈ rs, P r.2) (mergeEntries resolve ps qs >>= fun rs => pure ((k, w) :: rs)) := by
      intro w hw
      refine (ih hps hmerge).bind fun rs hrs => .pure ⟨?_, List.forall_mem_cons.2 ⟨hw, hrs.2⟩⟩
      rw [List.map_cons, List.map_cons, hrs.1]
    rw [mergeEntries]
    cases hpartner : Entries.lookup? (Dict.isKey k) qs with
    | none =>
      rw [pure_bind]
      exact hrest v hv
    | some other =>
      obtain ⟨q, hq, _, rfl⟩ := Entries.mem_of_at? hpartner
      exact (hmergev q hq).bind hrest

/-- What is made of merged entries is well-formed if it is of any well-formed ones. -/
theorem satisfiesM_of_mergeEntries {ps qs : List (Node × Node)} (hps : AreWellFormed ps)
    (hqs : AreWellFormed qs)
    (hmerge : ∀ p ∈ ps, ∀ q ∈ qs, SatisfiesM WellFormed (merge resolve p.2 q.2))
    {build : List (Node × Node) → Node} (hbuild : ∀ rs, AreWellFormed rs → (build rs).WellFormed) :
    SatisfiesM WellFormed
      (mergeEntries resolve ps qs >>= fun rs => pure (build (rs ++ unmatched ps qs))) :=
  (satisfiesM_mergeEntries hps.values hmerge).bind fun _ hrs => .pure (hbuild _
    ⟨hps.append_unmatched hqs.toKeyed hrs.1, List.forall_mem_append.2
      ⟨hrs.2, fun q hq => hqs.values q (List.mem_filter.1 hq).1⟩⟩)

theorem satisfiesM_resolved {x : m Node} (h : SatisfiesM WellFormed x) (e e' : Expiry) :
    SatisfiesM WellFormed (resolved e e' x) := h.bind fun _ hn => .pure (hn.withExpiry _)

/-- With a resolver that makes well-formed documents of well-formed ones, so does a merge. -/
theorem satisfiesM_merge
    (hresolve : ∀ a b : Node, a.WellFormed → b.WellFormed → SatisfiesM WellFormed (resolve a b))
    {a b : Node} (ha : a.WellFormed) (hb : b.WellFormed) :
    SatisfiesM WellFormed (merge resolve a b) := by
  have hconflict : ∀ {a b : Node}, a.WellFormed → b.WellFormed → ∀ e e',
      SatisfiesM WellFormed (resolved e e' (resolve (a.withExpiry none) (b.withExpiry none))) :=
    fun ha hb => satisfiesM_resolved (hresolve _ _ (ha.withExpiry none) (hb.withExpiry none))
  induction a using induct_children generalizing b with
  | step a ih =>
    have hentries : ∀ {build : List (Node × Node) → Node},
        (∀ rs, AreWellFormed rs → (build rs).WellFormed) →
        SatisfiesM WellFormed (mergeEntries resolve a.fields b.fields >>= fun rs =>
          pure (build (rs ++ unmatched a.fields b.fields))) :=
      satisfiesM_of_mergeEntries ha.fields hb.fields fun p hp q hq => ih p.2 (snd_mem_children hp)
        (ha.child (snd_mem_children hp)) (hb.child (snd_mem_children hq))
    -- the cases are those of the definition: literals, containers, smart nodes, nodes of two kinds
    unfold merge
    split
    · split
      · exact .pure ha
      · exact hresolve _ _ ha hb
    · split
      · exact hentries fun rs hrs => wellFormed_dict_iff.2 hrs
      · exact hresolve _ _ ha hb
    · split
      · exact .pure (wellFormed_set_iff.2
          ((wellFormed_set_iff.1 ha).addAll (wellFormed_set_iff.1 hb).nodes))
      · exact hresolve _ _ ha hb
    · split
      · have has := NodeSet.wellFormed_addAll (wellFormed_predicate_iff.1 ha).1
          (wellFormed_predicate_iff.1 hb).1
        exact hentries fun rs hrs => wellFormed_predicate_iff.2 ⟨has, hrs⟩
      · exact hresolve _ _ ha hb
    · split
      · split
        · exact hentries fun rs hrs => wellFormed_identity_iff.2 hrs
        · exact hconflict ha hb _ _
      · exact hresolve _ _ ha hb
    · split
      · split
        · exact hentries fun rs hrs => wellFormed_claim_iff.2 ⟨(wellFormed_claim_iff.1 ha).1, hrs⟩
        · exact hconflict ha hb _ _
      · exact hresolve _ _ ha hb
    · split
      · exact hentries fun rs hrs => wellFormed_verify_iff.2 ⟨(wellFormed_verify_iff.1 ha).1, hrs⟩
      · exact hconflict ha hb _ _
    · split
      · obtain ⟨hvs, huvs, _⟩ := wellFormed_reachable_iff.1 ha
        obtain ⟨hvs', huvs', _⟩ := wellFormed_reachable_iff.1 hb
        exact hentries fun rs hrs => wellFormed_reachable_iff.2 ⟨hvs.addAll hvs'.nodes,
          .sublist List.filter_sublist (huvs.addAll huvs'.nodes), hrs⟩
      · exact hconflict ha hb _ _
    · exact hresolve _ _ ha hb

end Node

end PeerRecords
