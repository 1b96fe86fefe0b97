import PeerRecords.Proofs.Node.Distinct

/-
  Entries by what stands at a key.
  Of entries whose keys are pairwise unequal (`Keyed`) only what stands at each key matters to
  structural equality (`Same`): two dicts are equal when their entries are (`eqv_dict_iff`), and so
  are two predicates with equal arguments (`eqv_predicate_iff`). The user's fields of a smart node
  hide those of its own arguments that have their keys (`at?_fields`), so two smart nodes of one
  kind are equal when their fields are and those of their own arguments that are not hidden
  (`same_fields_iff`).
-/

namespace PeerRecords

open Node

/-! ## What stands at a key -/

namespace Entries

/-- The value at a key. -/
abbrev at? (k : Node) (ps : List (Node × Node)) : Option Node := lookup? (Dict.isKey k) ps

/-- The entries at other keys. -/
def without (k : Node) (ps : List (Node × Node)) : List (Node × Node) :=
  ps.filter fun p => !p.1.eqv k

/-- The keys of the entries are well-formed and pairwise unequal. -/
structure Keyed (ps : List (Node × Node)) : Prop where
  wellFormed : ∀ p ∈ ps, p.1.WellFormed
  distinct : areDistinct (ps.map (·.1)) = true

theorem keyed_cons_iff {p : Node × Node} {ps : List (Node × Node)} : Keyed (p :: ps) ↔
    (p.1.WellFormed ∧ ∀ q ∈ ps, p.1.eqv q.1 = false) ∧ Keyed ps := by
  constructor
  · intro h
    have hdistinct := areDistinct_iff.1 h.distinct
    rw [List.map_cons, List.pairwise_cons, List.forall_mem_map] at hdistinct
    obtain ⟨hp, hps⟩ := List.forall_mem_cons.1 h.wellFormed
    exact ⟨⟨hp, hdistinct.1⟩, hps, areDistinct_iff.2 hdistinct.2⟩
  · rintro ⟨⟨hp, hother⟩, hps⟩
    refine ⟨List.forall_mem_cons.2 ⟨hp, hps.wellFormed⟩, areDistinct_iff.2 ?_⟩
    rw [List.map_cons, List.pairwise_cons, List.forall_mem_map]
    exact ⟨hother, areDistinct_iff.1 hps.distinct⟩

/-- The key of the first entry is the key of no other. -/
theorem Keyed.forall_tail_ne {p : Node × Node} {ps : List (Node × Node)} (h : Keyed (p :: ps))
    {k : Node} (hk : k.WellFormed) (hpk : p.1.eqv k = true) : ∀ q ∈ ps, q.1.eqv k = false := by
  intro q hq
  obtain ⟨⟨hp, hother⟩, hps⟩ := keyed_cons_iff.1 h
  rw [← eqv_congr_right (hps.wellFormed q hq) hp hk hpk, eqv_comm (hps.wellFormed q hq) hp]
  exact hother q hq

theorem Keyed.sublist {ps qs : List (Node × Node)} (h : ps.Sublist qs) (hqs : Keyed qs) :
    Keyed ps :=
  ⟨fun p hp => hqs.wellFormed p (h.subset hp), areDistinct_sublist (h.map _) hqs.distinct⟩

theorem Keyed.without {ps : List (Node × Node)} (h : Keyed ps) (k : Node) :
    Keyed (without k ps) := h.sublist List.filter_sublist

theorem at?_cons (k : Node) (p : Node × Node) (ps : List (Node × Node)) :
    at? k (p :: ps) = if p.1.eqv k then some p.2 else at? k ps := by
  rw [at?, lookup?, List.find?_cons, Dict.isKey]
  cases p.1.eqv k <;> rfl

theorem without_cons (k : Node) (p : Node × Node) (ps : List (Node × Node)) :
    without k (p :: ps) = if p.1.eqv k then without k ps else p :: without k ps := by
  rw [without, List.filter_cons]
  cases p.1.eqv k <;> rfl

theorem at?_eq_none_iff {k : Node} {ps : List (Node × Node)} :
    at? k ps = none ↔ ∀ p ∈ ps, p.1.eqv k = false := by
  simp [at?, lookup?, Dict.isKey]

theorem mem_of_at? {k v : Node} {ps : List (Node × Node)} (h : at? k ps = some v) :
    ∃ p ∈ ps, p.1.eqv k = true ∧ p.2 = v := by
  obtain ⟨p, hp, rfl⟩ := Option.map_eq_some_iff.1 h
  have hkey := List.find?_some (p := fun q : Node × Node => q.1.eqv k) hp
  exact ⟨p, List.mem_of_find?_eq_some hp, hkey, rfl⟩

/-- What stands at a key is a child. -/
theorem mem_children_of_at? {n k v : Node} (h : v ∈ at? k n.fields) : v ∈ n.children := by
  obtain ⟨p, hp, _, rfl⟩ := mem_of_at? h
  exact snd_mem_children hp

/-- An entry is the one at its key. -/
theorem at?_of_mem {ps : List (Node × Node)} (h : Keyed ps) {p : Node × Node} (hp : p ∈ ps)
    {k : Node} (hk : k.WellFormed) (hpk : p.1.eqv k = true) : at? k ps = some p.2 := by
  induction ps with
  | nil => exact absurd hp List.not_mem_nil
  | cons q ps ih =>
    obtain ⟨⟨hq, hother⟩, hps⟩ := keyed_cons_iff.1 h
    rw [at?_cons]
    obtain rfl | hp := List.mem_cons.1 hp
    · rw [if_pos hpk]
    · have hne : q.1.eqv k = false := by
        rw [← eqv_congr_right hq (hps.wellFormed p hp) hk hpk]
        exact hother p hp
      rw [if_neg (by rw [hne]; exact Bool.false_ne_true)]
      exact ih hps hp

theorem without_of_forall {k : Node} {ps : List (Node × Node)} (h : ∀ p ∈ ps, p.1.eqv k = false) :
    without k ps = ps := List.filter_eq_self.2 fun p hp => by rw [h p hp]; rfl

theorem without_comm (k l : Node) (ps : List (Node × Node)) :
    without k (without l ps) = without l (without k ps) := by
  rw [without, without, without, without, List.filter_filter, List.filter_filter]
  exact List.filter_congr fun p _ => Bool.and_comm _ _

section

variable {k l : Node} (hk : k.WellFormed) (hl : l.WellFormed)
include hk hl

/-- Equal keys have the same value and the same other entries. -/
theorem at?_congr {ps : List (Node × Node)} (hps : ∀ p ∈ ps, p.1.WellFormed)
    (hkl : k.eqv l = true) : at? k ps = at? l ps ∧ without k ps = without l ps := by
  have hsame : ∀ p ∈ ps, p.1.eqv k = p.1.eqv l := fun p hp =>
    eqv_congr_right (hps p hp) hk hl hkl
  constructor
  · rw [at?, at?, lookup?, lookup?]
    congr 1
    induction ps with
    | nil => rfl
    | cons p ps ih =>
      obtain ⟨hp, hrest⟩ := List.forall_mem_cons.1 hsame
      rw [List.find?_cons, List.find?_cons, Dict.isKey, Dict.isKey, hp]
      cases p.1.eqv l with
      | true => rfl
      | false => exact ih (fun q hq => hps q (List.mem_cons_of_mem p hq)) hrest
  · exact List.filter_congr fun p hp => congrArg (!·) (hsame p hp)

/-- What stands at a key stays when the entry at another is taken out. -/
theorem at?_without {ps : List (Node × Node)} (hps : ∀ p ∈ ps, p.1.WellFormed)
    (hkl : k.eqv l = false) : at? l (without k ps) = at? l ps := by
  induction ps with
  | nil => rfl
  | cons p ps ih =>
    obtain ⟨hp, hrest⟩ := List.forall_mem_cons.1 hps
    rw [without_cons, at?_cons l p]
    cases hpk : p.1.eqv k with
    | true =>
      have hpl : p.1.eqv l = false := (eqv_congr_left hl hp hk hpk).trans hkl
      rw [hpl]
      exact ih hrest
    | false =>
      rw [if_neg Bool.false_ne_true, at?_cons, ih hrest]

end

end Entries

/-! ## Plain forms at a key -/

theorem Node.eqv_disassemble_left (a b : Node) : a.disassemble.eqv b = a.eqv b := by
  rw [eqv, disassemble_disassemble, eqv]

namespace Entries

theorem at?_disassembleEntries (k : Node) (ps : List (Node × Node)) :
    at? k (disassembleEntries ps) = (at? k ps).map disassemble := by
  induction ps with
  | nil => rfl
  | cons p ps ih =>
    obtain ⟨l, v⟩ := p
    rw [disassembleEntries, at?_cons, at?_cons, ih, eqv_disassemble_left]
    cases l.eqv k <;> rfl

theorem Keyed.disassembleEntries {ps : List (Node × Node)} (h : Keyed ps) :
    Keyed (disassembleEntries ps) := by
  refine ⟨?_, areDistinct_keys_disassembleEntries h.distinct⟩
  rw [disassembleEntries_eq_map]
  exact List.forall_mem_map.2 fun p hp => (h.wellFormed p hp).disassemble

/-- A put changes what stands at its key and nothing else. -/
theorem at?_put {test : Node → Bool} {k l v : Node} (hk : k.WellFormed) (hl : l.WellFormed)
    {ps : List (Node × Node)} (hps : ∀ p ∈ ps, p.1.WellFormed)
    (htest : ∀ p ∈ ps, test p.1 = p.1.eqv l) :
    at? k (put test l v ps) = if l.eqv k then some v else at? k ps := by
  induction ps with
  | nil => exact at?_cons k (l, v) []
  | cons p ps ih =>
    obtain ⟨hp, hps⟩ := List.forall_mem_cons.1 hps
    obtain ⟨hpl, htest⟩ := List.forall_mem_cons.1 htest
    rw [put, hpl]
    cases hsame : p.1.eqv l with
    | true =>
      have hkey : p.1.eqv k = l.eqv k := eqv_congr_left hk hp hl hsame
      rw [if_pos rfl, at?_cons, at?_cons, hkey]
      cases l.eqv k <;> rfl
    | false =>
      rw [if_neg Bool.false_ne_true, at?_cons, at?_cons, ih hps htest]
      cases hpk : p.1.eqv k with
      | false => rfl
      | true =>
        -- the entry is at the key that is asked for, so the other key is not
        have hlk : l.eqv k = false := by
          rw [← eqv_congr_right hl hp hk hpk, eqv_comm hl hp]
          exact hsame
        rw [hlk]
        rfl

/-- Fields that are laid over others hide those that have their keys. -/
theorem at?_layOver {k : Node} (hk : k.WellFormed) {own us : List (Node × Node)}
    (hown : ∀ p ∈ own, p.1.Tidy) (hus : ∀ u ∈ us, u.1.isPlain = true) (hkeyed : Keyed us) :
    at? k (layOver own us) = (at? k us).or (at? k own) := by
  induction us generalizing own with
  | nil => rfl
  | cons u us ih =>
    obtain ⟨hplain, hus⟩ := List.forall_mem_cons.1 hus
    obtain ⟨⟨hu, _⟩, hrest⟩ := keyed_cons_iff.1 hkeyed
    have hput : ∀ p ∈ put (fun l => same false l u.1) u.1 u.2 own, p.1.Tidy := by
      intro p hp
      have hmem := List.mem_map_of_mem (f := (·.1)) hp
      rw [map_fst_put] at hmem
      split at hmem
      · obtain ⟨q, hq, heq⟩ := List.mem_map.1 hmem
        exact heq ▸ hown q hq
      · obtain hmem | hmem := List.mem_append.1 hmem
        · obtain ⟨q, hq, heq⟩ := List.mem_map.1 hmem
          exact heq ▸ hown q hq
        · rw [List.mem_singleton.1 hmem]
          exact ⟨hplain, hu⟩
    have hlaid : layOver own (u :: us) =
        layOver (put (fun l => same false l u.1) u.1 u.2 own) us := rfl
    rw [hlaid, ih hput hus hrest, at?_cons, at?_put hk hu (fun p hp => (hown p hp).2)
      fun p hp => (eqv_of_isPlain (hown p hp).1 hplain).symm]
    cases huk : u.1.eqv k with
    | false => rfl
    | true =>
      have hnone : at? k us = none := at?_eq_none_iff.2 (hkeyed.forall_tail_ne hk huk)
      rw [hnone]
      rfl

/-- The user's fields of a smart node hide its own arguments. -/
theorem at?_fields {k : Node} (hk : k.WellFormed) {own us : List (Node × Node)}
    (hown : ∀ p ∈ own, p.1.Tidy) (hus : Keyed us) :
    at? k (layOver own (disassembleEntries us)) = ((at? k us).map disassemble).or (at? k own) := by
  rw [at?_layOver hk hown ?_ hus.disassembleEntries, at?_disassembleEntries]
  rw [disassembleEntries_eq_map]
  exact List.forall_mem_map.2 fun u _ => isPlain_disassemble u.1

end Entries

/-! ## Entries that are the same at every key -/

namespace Entries

/-- Two values that are equal, or none on either side. -/
abbrev SameValue (o o' : Option Node) : Prop := Option.Rel (fun v w => v.eqv w = true) o o'

/-- At each key there are two values that are equal, or none on either side. -/
def Same (ps qs : List (Node × Node)) : Prop :=
  ∀ k : Node, k.WellFormed → SameValue (at? k ps) (at? k qs)

theorem sameValue_some {v w : Node} : SameValue (some v) (some w) ↔ v.eqv w = true :=
  Option.rel_some_some

theorem sameValue_map_disassemble {o o' : Option Node} :
    SameValue (o.map disassemble) (o'.map disassemble) ↔ SameValue o o' := by
  cases o <;> cases o' <;> simp [Option.rel_some_some, eqv_disassemble]

theorem same_disassembleEntries {ps qs : List (Node × Node)} :
    Same (disassembleEntries ps) (disassembleEntries qs) ↔ Same ps qs := by
  refine forall₂_congr fun k _ => ?_
  rw [at?_disassembleEntries, at?_disassembleEntries, sameValue_map_disassemble]

theorem same_fields_iff {own own' us us' : List (Node × Node)} (hown : ∀ p ∈ own, p.1.Tidy)
    (hown' : ∀ p ∈ own', p.1.Tidy) (hus : Keyed us) (hus' : Keyed us')
    (hkeys : ∀ k : Node, k.WellFormed → (at? k us = none ↔ at? k us' = none)) :
    Same (layOver own (disassembleEntries us)) (layOver own' (disassembleEntries us')) ↔
      Same us us' ∧ ∀ k : Node, k.WellFormed → at? k us = none →
        SameValue (at? k own) (at? k own') := by
  unfold Same
  rw [← forall₂_and]
  refine forall₂_congr fun k hk => ?_
  rw [at?_fields hk hown hus, at?_fields hk hown' hus']
  cases h : at? k us with
  | none =>
    rw [(hkeys k hk).1 h]
    simp
  | some v =>
    cases h' : at? k us' with
    | none =>
      rw [(hkeys k hk).2 h'] at h
      cases h
    | some w => simp [eqv_disassemble]

theorem sameValue_self {ps : List (Node × Node)} (hps : ∀ p ∈ ps, p.2.WellFormed) (k : Node) :
    SameValue (at? k ps) (at? k ps) := by
  cases h : at? k ps with
  | none => exact .none
  | some v =>
    obtain ⟨p, hp, _, rfl⟩ := mem_of_at? h
    exact .some (eqv_refl (hps p hp).distinctKeys)

/-- Laid over the same arguments, fields are the same if they were. -/
theorem same_fields_self_iff {own us us' : List (Node × Node)} (hown : ∀ c ∈ entryNodes own, c.Tidy)
    (hus : Keyed us) (hus' : Keyed us')
    (hkeys : ∀ k : Node, k.WellFormed → (at? k us = none ↔ at? k us' = none)) :
    Same (layOver own (disassembleEntries us)) (layOver own (disassembleEntries us')) ↔
      Same us us' := by
  have hfst : ∀ p ∈ own, p.1.Tidy := fun p hp => hown _ (fst_mem_entryNodes hp)
  rw [same_fields_iff hfst hfst hus hus' hkeys]
  exact and_iff_left fun k _ _ => sameValue_self (fun p hp => (hown _ (snd_mem_entryNodes hp)).2) k

/-- Two keys that are each alike to a third are alike. -/
theorem pairwise_alike_keys {ps : List (Node × Node)} (hps : ∀ c ∈ entryNodes ps, c.Tidy)
    (hkeyed : Keyed ps) :
    ps.Pairwise fun p p' => ∀ q : Node × Node, Alike p.1 q.1 → ¬ Alike p'.1 q.1 := by
  have hkeys := List.pairwise_map.1 (areDistinct_iff.1 hkeyed.distinct)
  refine hkeys.imp_of_mem fun hp hp' hne q h h' => ?_
  rw [((hps _ (fst_mem_entryNodes hp)).eqv_iff (hps _ (fst_mem_entryNodes hp'))).2
    (h.trans h'.symm)] at hne
  cases hne

/-- Entries of plain trees are paired off just if they are the same at every key. -/
theorem pairedOff_iff_same {ps qs : List (Node × Node)} (hps : ∀ c ∈ entryNodes ps, c.Tidy)
    (hqs : ∀ c ∈ entryNodes qs, c.Tidy) (hpkeys : Keyed ps) (hqkeys : Keyed qs) :
    PairedOff AlikeEntry ps qs ↔ Same ps qs := by
  have hkey : ∀ {p q : Node × Node}, p ∈ ps → q ∈ qs → (p.1.eqv q.1 = true ↔ Alike p.1 q.1) :=
    fun hp hq => (hps _ (fst_mem_entryNodes hp)).eqv_iff (hqs _ (fst_mem_entryNodes hq))
  have hvalue : ∀ {p q : Node × Node}, p ∈ ps → q ∈ qs → (p.2.eqv q.2 = true ↔ Alike p.2 q.2) :=
    fun hp hq => (hps _ (snd_mem_entryNodes hp)).eqv_iff (hqs _ (snd_mem_entryNodes hq))
  constructor
  · intro h k hk
    cases hat : at? k ps with
    | none =>
      have hnone : at? k qs = none := at?_eq_none_iff.2 fun q hq => by
        obtain ⟨p, hp, hpq, _⟩ := h.exists_left hq
        rw [← eqv_congr_left hk (hpkeys.wellFormed p hp) (hqkeys.wellFormed q hq)
          ((hkey hp hq).2 hpq)]
        exact at?_eq_none_iff.1 hat p hp
      rw [hnone]
      exact .none
    | some v =>
      obtain ⟨p, hp, hpk, rfl⟩ := mem_of_at? hat
      obtain ⟨q, hq, hpq, hv⟩ := h.exists_right hp
      have hqk : q.1.eqv k = true := by
        rw [← eqv_congr_left hk (hpkeys.wellFormed p hp) (hqkeys.wellFormed q hq)
          ((hkey hp hq).2 hpq)]
        exact hpk
      rw [at?_of_mem hqkeys hq hk hqk]
      exact .some ((hvalue hp hq).2 hv)
  · intro h
    refine .of_exists_exists (S := fun q p => Alike q.1 p.1) (fun p hp => ?_) ?_ (fun q hq => ?_) ?_
    · have hp' := hpkeys.wellFormed p hp
      have hat := h p.1 hp'
      rw [at?_of_mem hpkeys hp hp' (eqv_refl hp'.distinctKeys)] at hat
      cases hw : at? p.1 qs with
      | none => rw [hw] at hat; cases hat
      | some w =>
        rw [hw] at hat
        obtain ⟨q, hq, hqp, rfl⟩ := mem_of_at? hw
        refine ⟨q, hq, (hkey hp hq).1 (eqv_symm (hqkeys.wellFormed q hq) hp' hqp), ?_⟩
        exact (hvalue hp hq).1 (by simpa using hat)
    · exact (pairwise_alike_keys hps hpkeys).imp fun hne q hpq hpq' => hne q hpq.1 hpq'.1
    · have hq' := hqkeys.wellFormed q hq
      have hat := h q.1 hq'
      rw [at?_of_mem hqkeys hq hq' (eqv_refl hq'.distinctKeys)] at hat
      cases hv : at? q.1 ps with
      | none => rw [hv] at hat; cases hat
      | some v =>
        obtain ⟨p, hp, hpq, rfl⟩ := mem_of_at? hv
        exact ⟨p, hp, ((hkey hp hq).1 hpq).symm⟩
    · exact pairwise_alike_keys hqs hqkeys

end Entries

namespace Node

/-! ## Equality of dicts, predicates and sets -/

theorem eqv_dict_iff {e e' : Expiry} {t u : String} {ps qs : List (Node × Node)}
    (ha : (dict e t ps).WellFormed) (hb : (dict e' u qs).WellFormed) :
    (dict e t ps).eqv (dict e' u qs) = true ↔ t = u ∧ Entries.Same ps qs := by
  have hkeyed : ∀ {e t ps}, (dict e t ps).WellFormed → Entries.Keyed (disassembleEntries ps) :=
    fun h => Entries.Keyed.disassembleEntries
      ⟨fun p hp => h.child (fst_mem_entryNodes hp), (wellFormed_iff_children.1 h).1⟩
  rw [eqv_iff_alike ha hb, disassemble, disassemble, alike_dict,
    Entries.pairedOff_iff_same (fun c hc => ha.tidy.child hc) (fun c hc => hb.tidy.child hc)
      (hkeyed ha) (hkeyed hb), Entries.same_disassembleEntries]

/-- Equality of two nodes whose plain forms are predicates. -/
theorem eqv_iff_of_disassemble {a b : Node} (ha : a.WellFormed) (hb : b.WellFormed)
    {e e' : Expiry} {t u nt nu : String} {as bs : List Node} {ps qs : List (Node × Node)}
    (hda : a.disassemble = predicate e t as nt ps) (hdb : b.disassemble = predicate e' u bs nu qs) :
    a.eqv b = true ↔ t = u ∧ List.Forall₂ (fun x y => x.eqv y = true) as bs ∧ nt = nu ∧
      Entries.Same ps qs := by
  have hta := hda ▸ ha.tidy
  have htb := hdb ▸ hb.tidy
  have hkeyed : ∀ {e t as nt ps}, (predicate e t as nt ps).Tidy → Entries.Keyed ps := fun h =>
    ⟨fun p hp => (h.child (List.mem_append_right _ (fst_mem_entryNodes hp))).2,
      (wellFormed_iff_children.1 h.2).1⟩
  have hargs : List.Forall₂ (fun x y => x.eqv y = true) as bs ↔ List.Forall₂ Alike as bs := by
    have heqv : ∀ x ∈ as, ∀ y ∈ bs, (x.eqv y = true ↔ Alike x y) := fun x hx y hy =>
      (hta.child (List.mem_append_left _ hx)).eqv_iff (htb.child (List.mem_append_left _ hy))
    exact forall₂_congr_of_mem heqv
  rw [eqv_iff_alike ha hb, hda, hdb, alike_predicate, hargs, Entries.pairedOff_iff_same
    (fun c hc => hta.child (List.mem_append_right _ hc))
    (fun c hc => htb.child (List.mem_append_right _ hc)) (hkeyed hta) (hkeyed htb)]

theorem forall₂_eqv_disassembleAll {as bs : List Node} :
    List.Forall₂ (fun x y => x.eqv y = true) (disassembleAll as) (disassembleAll bs) ↔
      List.Forall₂ (fun x y => x.eqv y = true) as bs := by
  rw [disassembleAll_eq_map, disassembleAll_eq_map, List.forall₂_map_left_iff,
    List.forall₂_map_right_iff]
  simp only [eqv_disassemble]

theorem eqv_predicate_iff {e e' : Expiry} {t u nt nu : String} {as bs : List Node}
    {ps qs : List (Node × Node)} (ha : (predicate e t as nt ps).WellFormed)
    (hb : (predicate e' u bs nu qs).WellFormed) :
    (predicate e t as nt ps).eqv (predicate e' u bs nu qs) = true ↔
      t = u ∧ List.Forall₂ (fun x y => x.eqv y = true) as bs ∧ nt = nu ∧ Entries.Same ps qs := by
  rw [eqv_iff_of_disassemble ha hb rfl rfl, forall₂_eqv_disassembleAll,
    Entries.same_disassembleEntries]

/-- Sets that hold the same elements are equal. -/
theorem eqv_set_of_isIn {e e' : Expiry} {t : String} {es fs : List Node}
    (ha : (set e t es).WellFormed) (hb : (set e' t fs).WellFormed)
    (h : ∀ x : Node, x.WellFormed → x.isIn es = x.isIn fs) :
    (set e t es).eqv (set e' t fs) = true := by
  have hunlike : ∀ {e : Expiry} {ns : List Node}, (set e t ns).WellFormed →
      (disassembleAll ns).Pairwise fun x x' => ∀ y, Alike x y → ¬ Alike x' y := by
    intro e ns hns
    rw [disassembleAll_eq_map, List.pairwise_map]
    have hdistinct := areDistinct_iff.1 (wellFormed_iff_children.1 hns).1
    refine hdistinct.imp_of_mem fun hn hm hnm y hy hy' => ?_
    rw [(eqv_iff_alike (hns.child hn) (hns.child hm)).2 (hy.trans hy'.symm)] at hnm
    cases hnm
  have hpartner : ∀ {e e' : Expiry} {ns ms : List Node}, (set e t ns).WellFormed →
      (set e' t ms).WellFormed → (∀ x : Node, x.WellFormed → x.isIn ns = x.isIn ms) →
      ∀ x ∈ disassembleAll ns, ∃ y ∈ disassembleAll ms, Alike x y := by
    intro e e' ns ms hns hms h
    rw [disassembleAll_eq_map, disassembleAll_eq_map]
    refine List.forall_mem_map.2 fun n hn => ?_
    have hin : n.isIn ns = true :=
      List.any_eq_true.2 ⟨n, hn, eqv_refl (hns.child hn).distinctKeys⟩
    rw [h n (hns.child hn)] at hin
    obtain ⟨m, hm, hmn⟩ := List.any_eq_true.1 hin
    exact ⟨m.disassemble, List.mem_map_of_mem hm,
      ((eqv_iff_alike (hms.child hm) (hns.child hn)).1 hmn).symm⟩
  rw [eqv_iff_alike ha hb, disassemble, disassemble, alike_set]
  exact ⟨rfl, .of_exists_exists (hpartner ha hb h) (hunlike ha)
    (hpartner hb ha fun x hx => (h x hx).symm) (hunlike hb)⟩

end Node

end PeerRecords
