import PeerRecords.Proofs.Layout
import PeerRecords.Proofs.Node.Equivalence

/-
  Updates of equal plain documents.
  Plain documents are equal when they are so part by part (`EqualParts`), and an update goes by the
  parts too: what it has at a key comes from what the two sides have there (`updateAt`), a set holds
  the elements of both, and arguments are refreshed in order. None of this depends on the order of
  entries and elements, on the text of numbers or, up to the expirations of the result, on
  expirations. So equal documents can both be updated by equal ones or neither can, and the results
  are equal (`update_congr`).
-/

namespace PeerRecords

open Node

/-! ## Equal lists -/

namespace NodeSet

theorem forall₂_refresh {n n' : Node} (hn : n.WellFormed) (hn' : n'.WellFormed)
    (hnn' : n.eqv n' = true) {ms ms' : List Node} (hms : ∀ m ∈ ms, m.WellFormed)
    (hms' : ∀ m ∈ ms', m.WellFormed) (h : List.Forall₂ (fun x y => x.eqv y = true) ms ms') :
    List.Forall₂ (fun x y => x.eqv y = true) (refresh n ms) (refresh n' ms') := by
  induction h with
  | nil => exact .cons hnn' .nil
  | @cons m m' ms ms' hmm' hrest ih =>
    obtain ⟨hm, hms⟩ := List.forall_mem_cons.1 hms
    obtain ⟨hm', hms'⟩ := List.forall_mem_cons.1 hms'
    have hsame : m.eqv n = m'.eqv n' :=
      (eqv_congr_left hn hm hm' hmm').trans (eqv_congr_right hm' hn hn' hnn')
    rw [refresh_cons, refresh_cons, hsame]
    split
    · exact .cons (by rwa [eqv_refreshedBy_left, eqv_refreshedBy_right]) hrest
    · exact .cons hmm' (ih hms hms')

/-- Lists that are equal one by one stay so when they take in such lists. -/
theorem forall₂_refreshAll {ms ms' ns ns' : List Node} (hms : ∀ m ∈ ms, m.WellFormed)
    (hms' : ∀ m ∈ ms', m.WellFormed) (hns : ∀ n ∈ ns, n.WellFormed) (hns' : ∀ n ∈ ns', n.WellFormed)
    (hm : List.Forall₂ (fun x y => x.eqv y = true) ms ms')
    (hn : List.Forall₂ (fun x y => x.eqv y = true) ns ns') :
    List.Forall₂ (fun x y => x.eqv y = true) (refreshAll ms ns) (refreshAll ms' ns') := by
  induction hn generalizing ms ms' with
  | nil => exact hm
  | cons hnn' _ ih =>
    obtain ⟨hn, hns⟩ := List.forall_mem_cons.1 hns
    obtain ⟨hn', hns'⟩ := List.forall_mem_cons.1 hns'
    rw [refreshAll_cons, refreshAll_cons]
    exact ih (wellFormed_refresh hn hms) (wellFormed_refresh hn' hms') hns hns'
      (forall₂_refresh hn hn' hnn' hms hms' hm)

end NodeSet

/-! ## Equal parts -/

namespace Node

/-- Two nodes are equal part by part. -/
inductive EqualParts : Node → Node → Prop where
  | leaf (e e' : Expiry) {v w : Leaf} (h : v.alike w = true) : EqualParts (.leaf e v) (.leaf e' w)
  | dict (e e' : Expiry) (t : String) {ps qs : List (Node × Node)} (h : Entries.Same ps qs) :
    EqualParts (.dict e t ps) (.dict e' t qs)
  | set (e e' : Expiry) (t : String) (es fs : List Node)
      (h : ∀ x : Node, x.WellFormed → x.isIn es = x.isIn fs) :
    EqualParts (.set e t es) (.set e' t fs)
  | predicate (e e' : Expiry) (t nt : String) (as bs : List Node) {ps qs : List (Node × Node)}
      (hargs : List.Forall₂ (fun x y => x.eqv y = true) as bs) (h : Entries.Same ps qs) :
    EqualParts (.predicate e t as nt ps) (.predicate e' t bs nt qs)

theorem isIn_of_eqv_set {e e' : Expiry} {t u : String} {es fs : List Node}
    (ha : (set e t es).WellFormed) (hb : (set e' u fs).WellFormed)
    (h : (set e t es).eqv (set e' u fs) = true) {x : Node} (hx : x.WellFormed)
    (hin : x.isIn es = true) : x.isIn fs = true := by
  rw [eqv_eq_compareParts rfl rfl] at h
  simp only [compareParts, containsWith, Bool.and_eq_true, List.all_eq_true, List.any_eq_true] at h
  obtain ⟨n, hn, hnx⟩ := List.any_eq_true.1 hin
  obtain ⟨m, hm, hmn⟩ := h.2 n hn
  exact List.any_eq_true.2 ⟨m, hm, eqv_trans (hb.child hm) (ha.child hn) hx hmn hnx⟩

/-- Well-formed nodes that are equal part by part are equal. -/
theorem EqualParts.eqv {a b : Node} (h : EqualParts a b) (ha : a.WellFormed) (hb : b.WellFormed) :
    a.eqv b = true := by
  cases h with
  | leaf e e' h => exact h
  | dict e e' t h => exact (eqv_dict_iff ha hb).2 ⟨rfl, h⟩
  | set e e' t es fs h => exact eqv_set_of_isIn ha hb h
  | predicate e e' t nt as bs hargs h => exact (eqv_predicate_iff ha hb).2 ⟨rfl, hargs, rfl, h⟩

/-- Equal plain documents are equal part by part. -/
theorem Tidy.equalParts {a b : Node} (ha : a.Tidy) (hb : b.Tidy) (h : a.eqv b = true) :
    EqualParts a b := by
  have hasmart := (isPlain_iff_children.1 ha.1).1
  have hbsmart := (isPlain_iff_children.1 hb.1).1
  have hparts := h
  rw [eqv_eq_compareParts hasmart hbsmart] at hparts
  cases a with
  | leaf e v =>
    cases b with
    | leaf e' w => exact .leaf e e' hparts
    | _ => cases hparts
  | dict e t ps =>
    cases b with
    | dict e' u qs =>
      obtain ⟨rfl, hsame⟩ := (eqv_dict_iff ha.2 hb.2).1 h
      exact .dict e e' t hsame
    | _ => cases hparts
  | set e t es =>
    cases b with
    | set e' u fs =>
      simp only [compareParts, Bool.and_eq_true, beq_iff_eq] at hparts
      obtain ⟨⟨rfl, _⟩, _⟩ := hparts
      refine .set e e' t es fs fun x hx => Bool.eq_iff_iff.2 ⟨isIn_of_eqv_set ha.2 hb.2 h hx, ?_⟩
      exact isIn_of_eqv_set hb.2 ha.2 (eqv_symm ha.2 hb.2 h) hx
    | _ => cases hparts
  | predicate e t as nt ps =>
    cases b with
    | predicate e' u bs nu qs =>
      obtain ⟨rfl, hargs, rfl, hsame⟩ := (eqv_predicate_iff ha.2 hb.2).1 h
      exact .predicate e e' t nt as bs hargs hsame
    | _ => cases hparts
  | _ => cases hasmart

end Node

/-! ## What an update has at a key -/

namespace Entries

/-- What stands at a key of an update, by what stands there on the two sides. -/
def updateAt : Option Node → Option Node → Except Error (Option Node)
  | o, none => .ok o
  | none, some w => .ok (some w)
  | some v, some w => v.update w >>= fun r => .ok (some r)

variable {ps qs rs ps' qs' : List (Node × Node)}

theorem updateAt_updateEntries (hps : Keyed ps) (hqs : Keyed qs)
    (h : updateEntries ps qs = .ok rs) {k : Node} (hk : k.WellFormed) :
    updateAt (at? k ps) (at? k qs) = .ok (at? k rs) := by
  obtain ⟨hold, hnew⟩ := at?_updateEntries hps hqs h hk
  cases hq : at? k qs with
  | none => rw [hold hq, updateAt]
  | some w =>
    cases hp : at? k ps with
    | none => rw [(hnew w hq).1 hp, updateAt]
    | some v =>
      obtain ⟨r, hr, hat⟩ := (hnew w hq).2 v hp
      rw [hat, updateAt, hr, ok_bind]

/-- Entries can be folded in just if what stands at each key can. -/
theorem exists_updateEntries_iff_updateAt (hps : Keyed ps) (hqs : Keyed qs) :
    (∃ rs, updateEntries ps qs = .ok rs) ↔
      ∀ k : Node, k.WellFormed → ∃ o, updateAt (at? k ps) (at? k qs) = .ok o := by
  constructor
  · rintro ⟨rs, h⟩ k hk
    exact ⟨at? k rs, updateAt_updateEntries hps hqs h hk⟩
  · intro h
    refine (exists_updateEntries_iff hps hqs).2 fun q hq v hv => ?_
    have hkey := hqs.wellFormed q hq
    obtain ⟨o, ho⟩ := h q.1 hkey
    rw [hv, at?_of_mem hqs hq hkey (eqv_refl hkey.distinctKeys)] at ho
    obtain ⟨r, hr, _⟩ := bind_eq_ok.1 ho
    exact ⟨r, hr⟩

/-- If one update of entries succeeds and what it has at each key is related to what another would
have there, then the other succeeds with related values. -/
theorem exists_updateEntries_of_updateAt {R : Node → Node → Prop} (hps : Keyed ps) (hqs : Keyed qs)
    (hps' : Keyed ps') (hqs' : Keyed qs') (h : updateEntries ps qs = .ok rs)
    (hat : ∀ k : Node, k.WellFormed → ∀ o, updateAt (at? k ps) (at? k qs) = .ok o →
      ∃ o', updateAt (at? k ps') (at? k qs') = .ok o' ∧ Option.Rel R o o') :
    ∃ rs', updateEntries ps' qs' = .ok rs' ∧
      ∀ k : Node, k.WellFormed → Option.Rel R (at? k rs) (at? k rs') := by
  have hhere := fun k hk => hat k hk _ (updateAt_updateEntries hps hqs h hk)
  obtain ⟨rs', h'⟩ := (exists_updateEntries_iff_updateAt hps' hqs').2 fun k hk =>
    (hhere k hk).imp fun _ ho => ho.1
  refine ⟨rs', h', fun k hk => ?_⟩
  obtain ⟨o', ho', hrel⟩ := hhere k hk
  rw [updateAt_updateEntries hps' hqs' h' hk] at ho'
  rwa [← Except.ok.inj ho'] at hrel

/-- Equal values come to equal values at a key, if the values that are updated do. -/
theorem exists_updateAt_of_sameValue {o o' p p' x : Option Node} (ho : SameValue o o')
    (hp : SameValue p p') (h : updateAt o p = .ok x)
    (hvalue : ∀ v ∈ o, ∀ v' ∈ o', ∀ w ∈ p, ∀ w' ∈ p', v.eqv v' = true → w.eqv w' = true →
      ∀ r, v.update w = .ok r → ∃ r', v'.update w' = .ok r' ∧ r.eqv r' = true) :
    ∃ x', updateAt o' p' = .ok x' ∧ SameValue x x' := by
  cases hp with
  | none =>
    cases h
    exact ⟨o', rfl, ho⟩
  | some hw =>
    cases ho with
    | none =>
      cases h
      exact ⟨_, rfl, .some hw⟩
    | some hv =>
      obtain ⟨r, hr, h⟩ := bind_eq_ok.1 h
      cases h
      obtain ⟨r', hr', heqv⟩ := hvalue _ rfl _ rfl _ rfl _ rfl hv hw r hr
      exact ⟨some r', by rw [updateAt, hr', ok_bind], .some heqv⟩

end Entries

/-! ## Updates of equal documents -/

namespace Node

theorem kind_eq_of_alike {v w : Leaf} (h : v.alike w = true) : v.kind = w.kind := by
  cases v <;> cases w <;> simp_all [Leaf.alike, Leaf.kind]

/-- What is updated by a document is updated by an equal one, to an equal result. -/
theorem exists_update_of_eqv {a a' b b' r : Node} (ha : a.Tidy) (ha' : a'.Tidy) (hb : b.Tidy)
    (hb' : b'.Tidy) (haa' : a.eqv a' = true) (hbb' : b.eqv b' = true) (h : a.update b = .ok r) :
    ∃ r', a'.update b' = .ok r' ∧ r.eqv r' = true := by
  induction b using induct_children generalizing a a' b' r with
  | step b ih =>
    have hequal : ∀ {r'}, a'.update b' = .ok r' → EqualParts r r' → r.eqv r' = true :=
      fun h' hparts => hparts.eqv (ha.2.update hb.2 h) (ha'.2.update hb'.2 h')
    have haparts := ha.equalParts ha' haa'
    have hbparts := hb.equalParts hb' hbb'
    -- the entries of the two sides, whatever kind of node has them
    have hentries : Entries.Same a.fields a'.fields → Entries.Same b.fields b'.fields →
        ∃ rs', updateEntries a'.fields b'.fields = .ok rs' ∧ Entries.Same r.fields rs' := by
      intro hps hqs
      refine Entries.exists_updateEntries_of_updateAt ha.2.keyed hb.2.keyed ha'.2.keyed hb'.2.keyed
        (updated_of_update h).fields fun k hk o ho => ?_
      refine Entries.exists_updateAt_of_sameValue (hps k hk) (hqs k hk) ho ?_
      intro v hv v' hv' w hw w' hw' hvv' hww' x hx
      exact ih w (Entries.mem_children_of_at? hw) (ha.child (Entries.mem_children_of_at? hv))
        (ha'.child (Entries.mem_children_of_at? hv')) (hb.child (Entries.mem_children_of_at? hw))
        (hb'.child (Entries.mem_children_of_at? hw')) hvv' hww' hx
    have hr := updated_of_update h
    cases hr with
    | leaf e e' hkind =>
      cases haparts with
      | leaf _ d hv =>
        cases hbparts with
        | leaf _ d' hw =>
          have hkind' := (kind_eq_of_alike hv).symm.trans (hkind.trans (kind_eq_of_alike hw))
          have h' := (Updated.leaf d d' hkind').update_eq_ok
          exact ⟨_, h', hequal h' (.leaf _ _ hw)⟩
    | dict e e' t t' hrs =>
      cases haparts with
      | dict _ d _ hps =>
        cases hbparts with
        | dict _ d' _ hqs =>
          obtain ⟨rs', hrs', hsame⟩ := hentries hps hqs
          have h' := (Updated.dict d d' t t' hrs').update_eq_ok
          exact ⟨_, h', hequal h' (.dict _ _ t hsame)⟩
    | set e e' t es fs =>
      cases haparts with
      | set _ d _ _ es' hes =>
        cases hbparts with
        | set _ d' _ _ fs' hfs =>
          have h' := (Updated.set d d' t es' fs').update_eq_ok
          have helements : ∀ {e t ns}, (set e t ns).Tidy → ∀ n ∈ ns, n.WellFormed :=
            fun hset _ hn => hset.2.child hn
          refine ⟨_, h', hequal h' (.set _ _ t _ _ fun x hx => Bool.eq_iff_iff.2 ?_)⟩
          rw [NodeSet.isIn_refreshAll_iff hx (helements ha) (helements hb),
            NodeSet.isIn_refreshAll_iff hx (helements ha') (helements hb'), hes x hx, hfs x hx]
    | predicate e e' t t' nt nt' as bs hrs =>
      cases haparts with
      | predicate _ d _ _ _ as' has hps =>
        cases hbparts with
        | predicate _ d' _ _ _ bs' hbs hqs =>
          obtain ⟨rs', hrs', hsame⟩ := hentries hps hqs
          have h' := (Updated.predicate d d' t t' nt nt' as' bs' hrs').update_eq_ok
          refine ⟨_, h', hequal h' (.predicate _ _ t nt _ _ ?_ hsame)⟩
          exact NodeSet.forall₂_refreshAll
            (fun _ hn => ha.2.child (List.mem_append_left _ hn))
            (fun _ hn => ha'.2.child (List.mem_append_left _ hn))
            (fun _ hn => hb.2.child (List.mem_append_left _ hn))
            (fun _ hn => hb'.2.child (List.mem_append_left _ hn)) has hbs
    | _ => cases haparts

/-- Of two equal plain documents, each with one of two equal plain documents to be updated by, both
can be updated or neither, and the results are equal. -/
theorem update_congr {a a' b b' : Node} (ha : a.Tidy) (ha' : a'.Tidy) (hb : b.Tidy) (hb' : b'.Tidy)
    (haa' : a.eqv a' = true) (hbb' : b.eqv b' = true) :
    ((∃ r, a.update b = .ok r) ↔ ∃ r', a'.update b' = .ok r') ∧
    ∀ r r', a.update b = .ok r → a'.update b' = .ok r' → r.eqv r' = true := by
  refine ⟨⟨?_, ?_⟩, ?_⟩
  · rintro ⟨r, hr⟩
    obtain ⟨r', hr', _⟩ := exists_update_of_eqv ha ha' hb hb' haa' hbb' hr
    exact ⟨r', hr'⟩
  · rintro ⟨r', hr'⟩
    obtain ⟨r, hr, _⟩ := exists_update_of_eqv ha' ha hb' hb (eqv_symm ha.2 ha'.2 haa')
      (eqv_symm hb.2 hb'.2 hbb') hr'
    exact ⟨r, hr⟩
  · intro r r' hr hr'
    obtain ⟨x, hx, heqv⟩ := exists_update_of_eqv ha ha' hb hb' haa' hbb' hr
    rwa [Except.ok.inj (hx.symm.trans hr')] at heqv

/-- The rate 0.5 and the texts that it is of. -/
def rated (e : Expiry) (texts : List String) : Node :=
  dict e "" [(ofString "rate", leaf none (.float ⟨⟨5, 1⟩, by decide⟩)),
    (ofString "of", set none "" (texts.map ofString))]

/-- The same with its entries in the other order, and the rate written 0.50. -/
def ratedLast (e : Expiry) (texts : List String) : Node :=
  dict e "" [(ofString "of", set none "" (texts.map ofString)),
    (ofString "rate", leaf none (.float ⟨⟨50, 2⟩, by decide⟩))]

theorem update_congr_rated :
    (rated none ["a", "b"]).eqv (ratedLast (some 7) ["b", "a"]) = true ∧
    (rated none ["c", "a"]).eqv (ratedLast none ["a", "c"]) = true ∧
    ((∃ r, (rated none ["a", "b"]).update (rated none ["c", "a"]) = .ok r) ↔
      ∃ r', (ratedLast (some 7) ["b", "a"]).update (ratedLast none ["a", "c"]) = .ok r') ∧
    ∀ r r', (rated none ["a", "b"]).update (rated none ["c", "a"]) = .ok r →
      (ratedLast (some 7) ["b", "a"]).update (ratedLast none ["a", "c"]) = .ok r' →
      r.eqv r' = true := by
  have hab : (rated none ["a", "b"]).eqv (ratedLast (some 7) ["b", "a"]) = true := by decide
  have hcd : (rated none ["c", "a"]).eqv (ratedLast none ["a", "c"]) = true := by decide
  exact ⟨hab, hcd, update_congr ⟨rfl, rfl⟩ ⟨rfl, rfl⟩ ⟨rfl, rfl⟩ ⟨rfl, rfl⟩ hab hcd⟩

end Node

end PeerRecords
