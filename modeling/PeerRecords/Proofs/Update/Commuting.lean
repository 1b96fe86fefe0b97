import PeerRecords.Proofs.Merge.Survival
import PeerRecords.Proofs.Update.Congruence

/-
  Updates that do not compete.
  `NonCompeting a b` says that, wherever a path of keys leads somewhere in both documents, there are
  equal literals, dicts with equal tags or sets with equal tags. Then neither document has anything
  that gives way to the other's, and the two can be updated by each other, to equal results that
  expire alike at every path of keys (`update_comm_of_nonCompeting`). What differs is the order of
  entries and elements, and which of two equal literals or keys is kept.
-/

namespace PeerRecords

open Node

namespace Node

/-! ## Paths of keys -/

/-- What stands at the end of a path of keys. -/
def atKeys (ks : List Node) (n : Node) : Option Node := n.follow (ks.map .value)

theorem atKeys_dict (k : Node) (ks : List Node) (e : Expiry) (t : String)
    (ps : List (Node × Node)) :
    (dict e t ps).atKeys (k :: ks) = (Entries.at? k ps).bind (atKeys ks) := rfl

/-- Neither of two nodes gives way to the other: they are equal literals, dicts with equal tags or
sets with equal tags. -/
inductive Concurs : Node → Node → Prop where
  | leaf (e e' : Expiry) {v w : Leaf} (h : v.alike w = true) : Concurs (.leaf e v) (.leaf e' w)
  | dict (e e' : Expiry) (t : String) (ps qs : List (Node × Node)) :
    Concurs (.dict e t ps) (.dict e' t qs)
  | set (e e' : Expiry) (t : String) (es fs : List Node) : Concurs (.set e t es) (.set e' t fs)

/-- Wherever a path of keys leads somewhere in both documents, neither node gives way to the
other. -/
def NonCompeting (a b : Node) : Prop :=
  ∀ ks : List Node, (∀ k ∈ ks, k.WellFormed) → ∀ v w,
    a.atKeys ks = some v → b.atKeys ks = some w → Concurs v w

theorem NonCompeting.concurs {a b : Node} (h : NonCompeting a b) : Concurs a b :=
  h [] (fun _ hk => absurd hk List.not_mem_nil) a b rfl rfl

section

variable {e e' : Expiry} {t : String} {ps qs : List (Node × Node)}

/-- Dicts do not compete just if what stands at keys of both does not. -/
theorem nonCompeting_dict_iff : NonCompeting (dict e t ps) (dict e' t qs) ↔
    ∀ k : Node, k.WellFormed → ∀ v ∈ Entries.at? k ps, ∀ w ∈ Entries.at? k qs,
      NonCompeting v w := by
  constructor
  · intro h k hk v hv w hw ks hks x y hx hy
    refine h (k :: ks) (List.forall_mem_cons.2 ⟨hk, hks⟩) x y ?_ ?_
    · rw [atKeys_dict, hv, Option.bind_some, hx]
    · rw [atKeys_dict, hw, Option.bind_some, hy]
  · intro h ks hks x y hx hy
    cases ks with
    | nil =>
      cases hx
      cases hy
      exact .dict e e' t ps qs
    | cons k ks =>
      obtain ⟨hk, hks⟩ := List.forall_mem_cons.1 hks
      obtain ⟨v, hv, hx⟩ := Option.bind_eq_some_iff.1 hx
      obtain ⟨w, hw, hy⟩ := Option.bind_eq_some_iff.1 hy
      exact h k hk v hv w hw ks hks x y hx hy

/-- It is enough to look at the entries with equal keys. -/
theorem nonCompeting_dict (hps : ∀ p ∈ ps, p.1.WellFormed) (hqs : ∀ q ∈ qs, q.1.WellFormed)
    (h : ∀ p ∈ ps, ∀ q ∈ qs, p.1.eqv q.1 = true → NonCompeting p.2 q.2) :
    NonCompeting (dict e t ps) (dict e' t qs) := by
  refine nonCompeting_dict_iff.2 fun k hk v hv w hw => ?_
  obtain ⟨p, hp, hpk, rfl⟩ := Entries.mem_of_at? hv
  obtain ⟨q, hq, hqk, rfl⟩ := Entries.mem_of_at? hw
  refine h p hp q hq ?_
  rw [eqv_congr_right (hps p hp) (hqs q hq) hk hqk]
  exact hpk

end

/-- Under anything but dicts there is no path of keys. -/
theorem nonCompeting_of_concurs {a b : Node} (h : Concurs a b)
    (ha : ∀ e t ps, a ≠ dict e t ps) : NonCompeting a b := by
  intro ks _ v w hv hw
  cases ks with
  | nil =>
    cases hv
    cases hw
    exact h
  | cons k ks =>
    cases h with
    | dict e e' t ps qs => exact absurd rfl (ha e t ps)
    | leaf => cases hv
    | set => cases hv

/-! ## Results from both sides -/

/-- Two documents are equal and expire alike at every path of keys. -/
structure SameInTime (r r' : Node) : Prop where
  eqv : r.eqv r' = true
  expiry : ∀ ks : List Node, (∀ k ∈ ks, k.WellFormed) →
    (r.atKeys ks).map Node.expiry = (r'.atKeys ks).map Node.expiry

theorem SameInTime.refl {n : Node} (h : n.WellFormed) : SameInTime n n :=
  ⟨eqv_refl h.distinctKeys, fun _ _ => rfl⟩

/-- Nodes with nothing at keys, if they themselves expire alike. -/
theorem SameInTime.of_eqv {r r' : Node} (h : r.eqv r' = true) (he : r.expiry = r'.expiry)
    (hr : ∀ e t ps, r ≠ dict e t ps) (hr' : ∀ e t ps, r' ≠ dict e t ps) : SameInTime r r' := by
  refine ⟨h, fun ks _ => ?_⟩
  have hnone : ∀ {n : Node} {k : Node} {ks : List Node}, (∀ e t ps, n ≠ dict e t ps) →
      n.atKeys (k :: ks) = none := by
    intro n k ks hn
    cases n with
    | dict e t ps => exact absurd rfl (hn e t ps)
    | _ => rfl
  cases ks with
  | nil => exact congrArg some he
  | cons k ks => rw [hnone hr, hnone hr']

section

variable {o o' : Option Node} (h : Option.Rel SameInTime o o')
include h

theorem sameValue_of_sameInTime : Entries.SameValue o o' := by
  cases h with
  | none => exact .none
  | some h => exact .some h.eqv

theorem expiry_bind_atKeys {ks : List Node} (hks : ∀ k ∈ ks, k.WellFormed) :
    (o.bind (atKeys ks)).map Node.expiry = (o'.bind (atKeys ks)).map Node.expiry := by
  cases h with
  | none => rfl
  | some h => exact h.expiry ks hks

end

theorem SameInTime.dict {e : Expiry} {t : String} {rs rs' : List (Node × Node)}
    (hr : (Node.dict e t rs).WellFormed) (hr' : (Node.dict e t rs').WellFormed)
    (h : ∀ k : Node, k.WellFormed → Option.Rel SameInTime (Entries.at? k rs) (Entries.at? k rs')) :
    SameInTime (.dict e t rs) (.dict e t rs') := by
  refine ⟨(eqv_dict_iff hr hr').2 ⟨rfl, fun k hk => sameValue_of_sameInTime (h k hk)⟩, ?_⟩
  intro ks hks
  cases ks with
  | nil => rfl
  | cons k ks =>
    obtain ⟨hk, hks⟩ := List.forall_mem_cons.1 hks
    rw [atKeys_dict, atKeys_dict, expiry_bind_atKeys (h k hk) hks]

end Node

namespace Entries

/-- What stands at a key on one side only is there in both updates. -/
theorem exists_updateAt_swap {R : Node → Node → Prop} {o o' : Option Node}
    (hself : ∀ v, v ∈ o ∨ v ∈ o' → R v v)
    (hboth : ∀ v ∈ o, ∀ w ∈ o', ∃ r r', v.update w = .ok r ∧ w.update v = .ok r' ∧ R r r') :
    ∃ x x', updateAt o o' = .ok x ∧ updateAt o' o = .ok x' ∧ Option.Rel R x x' := by
  cases o with
  | none =>
    cases o' with
    | none => exact ⟨none, none, rfl, rfl, .none⟩
    | some w => exact ⟨some w, some w, rfl, rfl, .some (hself w (.inr rfl))⟩
  | some v =>
    cases o' with
    | none => exact ⟨some v, some v, rfl, rfl, .some (hself v (.inl rfl))⟩
    | some w =>
      obtain ⟨r, r', hr, hr', hrel⟩ := hboth v rfl w rfl
      exact ⟨some r, some r', by rw [updateAt, hr, ok_bind], by rw [updateAt, hr', ok_bind],
        .some hrel⟩

/-- Entries can be folded in from both sides, to related values at every key, if what stands at each
key can. -/
theorem exists_updateEntries_swap {R : Node → Node → Prop} {ps qs : List (Node × Node)}
    (hps : Keyed ps) (hqs : Keyed qs)
    (hat : ∀ k : Node, k.WellFormed → ∃ x x', updateAt (at? k ps) (at? k qs) = .ok x ∧
      updateAt (at? k qs) (at? k ps) = .ok x' ∧ Option.Rel R x x') :
    ∃ rs rs', updateEntries ps qs = .ok rs ∧ updateEntries qs ps = .ok rs' ∧
      ∀ k : Node, k.WellFormed → Option.Rel R (at? k rs) (at? k rs') := by
  obtain ⟨rs, hrs⟩ := (exists_updateEntries_iff_updateAt hps hqs).2 fun k hk => by
    obtain ⟨x, _, hx, _⟩ := hat k hk
    exact ⟨x, hx⟩
  obtain ⟨rs', hrs', hrel⟩ := exists_updateEntries_of_updateAt (R := R) hps hqs hqs hps hrs
    fun k hk o ho => by
      obtain ⟨x, x', hx, hx', hrel⟩ := hat k hk
      obtain rfl := Except.ok.inj (hx.symm.trans ho)
      exact ⟨x', hx', hrel⟩
  exact ⟨rs, rs', hrs, hrs', hrel⟩

end Entries

namespace Node

/-! ## Updates from both sides -/

/-- Documents that do not compete are updated by each other, to results that are the same in
time. -/
theorem exists_update_swap {a b : Node} (ha : a.WellFormed) (hb : b.WellFormed)
    (h : NonCompeting a b) :
    ∃ r r', a.update b = .ok r ∧ b.update a = .ok r' ∧ SameInTime r r' := by
  induction b using induct_children generalizing a with
  | step b ih =>
    cases h.concurs with
    | leaf e e' hvalue =>
      have hkind := kind_eq_of_alike hvalue
      refine ⟨_, _, (Updated.leaf e e' hkind).update_eq_ok,
        (Updated.leaf e' e hkind.symm).update_eq_ok, .of_eqv ?_ ?_ ?_ ?_⟩
      · exact (leaf_alike_comm _ _).trans hvalue
      · exact Expiry.combine_comm e e'
      · exact fun _ _ _ h => nomatch h
      · exact fun _ _ _ h => nomatch h
    | set e e' t es fs =>
      have hr := (Updated.set e e' t es fs).update_eq_ok
      have hr' := (Updated.set e' e t fs es).update_eq_ok
      have hes : ∀ n ∈ es, n.WellFormed := fun _ hn => ha.child hn
      have hfs : ∀ n ∈ fs, n.WellFormed := fun _ hn => hb.child hn
      refine ⟨_, _, hr, hr', .of_eqv ?_ ?_ ?_ ?_⟩
      · refine eqv_set_of_isIn (ha.update hb hr) (hb.update ha hr') fun x hx => ?_
        rw [Bool.eq_iff_iff, NodeSet.isIn_refreshAll_iff hx hes hfs,
          NodeSet.isIn_refreshAll_iff hx hfs hes, or_comm]
      · exact Expiry.combine_comm e e'
      · exact fun _ _ _ h => nomatch h
      · exact fun _ _ _ h => nomatch h
    | dict e e' t ps qs =>
      have hself : ∀ {n k v : Node}, n.WellFormed → v ∈ Entries.at? k n.fields → v.WellFormed :=
        fun hn hv => hn.child (Entries.mem_children_of_at? hv)
      obtain ⟨rs, rs', hrs, hrs', hvalues⟩ := Entries.exists_updateEntries_swap (R := SameInTime)
        ha.keyed hb.keyed fun k hk => Entries.exists_updateAt_swap
          (fun v hv => .refl (hv.elim (hself ha) (hself hb)))
          fun v hv w hw => ih w (Entries.mem_children_of_at? hw) (hself ha hv) (hself hb hw)
            (nonCompeting_dict_iff.1 h k hk v hv w hw)
      have hr := (Updated.dict e e' t t hrs).update_eq_ok
      have hr' := (Updated.dict e' e t t hrs').update_eq_ok
      have hwf' := hb.update ha hr'
      rw [Expiry.combine_comm] at hr' hwf'
      exact ⟨_, _, hr, hr', .dict (ha.update hb hr) hwf' hvalues⟩

/-- Dicts with no key in common are put one after the other. -/
theorem update_dict_of_disjoint {e e' : Expiry} {t : String} {ps qs : List (Node × Node)}
    (ha : (dict e t ps).WellFormed) (hb : (dict e' t qs).WellFormed)
    (hdisjoint : ∀ p ∈ ps, ∀ q ∈ qs, p.1.eqv q.1 = false) :
    areDistinct ((ps ++ qs).map (·.1)) = true ∧
      (dict e t ps).update (dict e' t qs) = .ok (dict (Expiry.combine e e') t (ps ++ qs)) := by
  have hdistinct : areDistinct ((ps ++ qs).map (·.1)) = true := by
    rw [areDistinct_iff, List.map_append, List.pairwise_append]
    refine ⟨areDistinct_iff.1 ha.keyed.distinct, areDistinct_iff.1 hb.keyed.distinct, ?_⟩
    exact List.forall_mem_map.2 fun p hp => List.forall_mem_map.2 (hdisjoint p hp)
  exact ⟨hdistinct, (Updated.dict e e' t t (updateEntries_eq_append hdistinct)).update_eq_ok⟩

/-- Documents that do not compete are updated by each other, to equal results that expire alike at
every path of keys. Dicts with one tag and no key in common unite: each entry of either is there,
and no key twice. -/
theorem update_comm_of_nonCompeting {a b : Node} (ha : a.WellFormed) (hb : b.WellFormed)
    (h : NonCompeting a b) :
    (∃ r r', a.update b = .ok r ∧ b.update a = .ok r' ∧ r.eqv r' = true ∧
      ∀ ks : List Node, (∀ k ∈ ks, k.WellFormed) →
        (r.atKeys ks).map expiry = (r'.atKeys ks).map expiry) ∧
    ∀ e e' t ps qs, (dict e t ps).WellFormed → (dict e' t qs).WellFormed →
      (∀ p ∈ ps, ∀ q ∈ qs, p.1.eqv q.1 = false) →
      (dict e t ps).update (dict e' t qs) = .ok (dict (Expiry.combine e e') t (ps ++ qs)) ∧
      (dict e' t qs).update (dict e t ps) = .ok (dict (Expiry.combine e e') t (qs ++ ps)) ∧
      areDistinct ((ps ++ qs).map (·.1)) = true := by
  constructor
  · obtain ⟨r, r', hr, hr', hsame⟩ := exists_update_swap ha hb h
    exact ⟨r, r', hr, hr', hsame.eqv, hsame.expiry⟩
  · intro e e' t ps qs hps hqs hdisjoint
    have hswapped : ∀ q ∈ qs, ∀ p ∈ ps, q.1.eqv p.1 = false := fun q hq p hp => by
      rw [eqv_comm (hqs.keyed.wellFormed q hq) (hps.keyed.wellFormed p hp)]
      exact hdisjoint p hp q hq
    obtain ⟨hdistinct, hr⟩ := update_dict_of_disjoint hps hqs hdisjoint
    obtain ⟨_, hr'⟩ := update_dict_of_disjoint hqs hps hswapped
    rw [Expiry.combine_comm] at hr'
    exact ⟨hr, hr', hdistinct⟩

/-- A meeting: its title, who comes, and the room. -/
def meeting (e : Expiry) (names : List String) (room : List (Node × Node)) : List (Node × Node) :=
  [(ofString "title", leaf e (.string "weekly")),
    (ofString "who", set none "" (names.map ofString)), (ofString "room", dict e "room" room)]

/-- A meeting as one side has it. -/
def planned : Node :=
  dict none "meeting" (meeting (some 3) ["ada", "bob"] [(ofString "floor", leaf none (.int 2))])

/-- The same meeting as another side has it, its entries in the other order. -/
def changed : Node :=
  dict (some 7) "meeting"
    (meeting (some 5) ["cy", "bob"] [(ofString "door", ofString "left")]).reverse

theorem nonCompeting_planned_changed : NonCompeting planned changed := by
  refine nonCompeting_dict (by decide) (by decide) fun p hp q hq hkey => ?_
  simp only [meeting, List.reverse_cons, List.reverse_nil, List.nil_append, List.cons_append,
    List.mem_cons, List.not_mem_nil, or_false] at hp hq
  obtain rfl | rfl | rfl := hp <;> obtain rfl | rfl | rfl := hq
  -- the three pairs with one key
  case inl.inr.inr => exact nonCompeting_of_concurs (.leaf _ _ rfl) fun _ _ _ h => nomatch h
  case inr.inl.inr.inl => exact nonCompeting_of_concurs (.set _ _ _ _ _) fun _ _ _ h => nomatch h
  case inr.inr.inl =>
    refine nonCompeting_dict (by decide) (by decide) fun p hp q hq hkey => ?_
    obtain rfl := List.mem_singleton.1 hp
    obtain rfl := List.mem_singleton.1 hq
    cases hkey
  all_goals cases hkey

theorem update_comm_of_nonCompeting_meeting :
    NonCompeting planned changed ∧
    (∃ r r', planned.update changed = .ok r ∧ changed.update planned = .ok r' ∧
      r.eqv r' = true ∧ ∀ ks : List Node, (∀ k ∈ ks, k.WellFormed) →
        (r.atKeys ks).map expiry = (r'.atKeys ks).map expiry) ∧
    ∀ e e' t ps qs, (dict e t ps).WellFormed → (dict e' t qs).WellFormed →
      (∀ p ∈ ps, ∀ q ∈ qs, p.1.eqv q.1 = false) →
      (dict e t ps).update (dict e' t qs) = .ok (dict (Expiry.combine e e') t (ps ++ qs)) ∧
      (dict e' t qs).update (dict e t ps) = .ok (dict (Expiry.combine e e') t (qs ++ ps)) ∧
      areDistinct ((ps ++ qs).map (·.1)) = true :=
  ⟨nonCompeting_planned_changed,
    update_comm_of_nonCompeting (by decide) (by decide) nonCompeting_planned_changed⟩

example : planned.update changed =
    .ok (dict (some 7) "meeting" (meeting (some 5) ["ada", "bob", "cy"]
      [(ofString "floor", leaf none (.int 2)), (ofString "door", ofString "left")])) := rfl

end Node

end PeerRecords
