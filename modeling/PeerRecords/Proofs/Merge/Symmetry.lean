import PeerRecords.Proofs.Merge.Basic

/-
  The join from the other side.
  A join succeeds from both sides or from neither (`exists_join_swap`). What stands in it may come
  out in another order: a set holds the same elements either way, but the arguments of a predicate
  and the verified addresses of a reachability result are compared in order, and those of the left
  side come first. `IsEven` says of two nodes that these lists come out the same from both sides. So
  the two joins are equal just if all nodes that are joined to each other, at any depth, are even
  (`join_symm_iff`).
-/

namespace PeerRecords

open Node

namespace Node

/-! ## Success -/

theorem exists_joinEntries_iff {ps qs : List (Node × Node)} :
    (∃ rs, joinEntries ps qs = .ok rs) ↔
      ∀ p ∈ ps, ∃ w, joinValue p.2 (Entries.at? p.1 qs) = .ok w := by
  have hmerge : (∃ rs, mergeEntries Resolver.reject ps qs = .ok rs) ↔
      ∀ p ∈ ps, ∃ w, joinValue p.2 (Entries.at? p.1 qs) = .ok w := by
    induction ps with
    | nil => exact ⟨fun _ _ hp => absurd hp List.not_mem_nil, fun _ => ⟨[], rfl⟩⟩
    | cons p ps ih =>
      rw [List.forall_mem_cons, ← ih, mergeEntries_cons]
      constructor
      · rintro ⟨rs, h⟩
        obtain ⟨w, hw, h⟩ := bind_eq_ok.1 h
        obtain ⟨us, hus, _⟩ := bind_eq_ok.1 h
        exact ⟨⟨w, hw⟩, us, hus⟩
      · rintro ⟨⟨w, hw⟩, us, hus⟩
        exact ⟨(p.1, w) :: us, by rw [hw, ok_bind, hus, ok_bind]⟩
  rw [← hmerge]
  constructor
  · rintro ⟨rs, h⟩
    obtain ⟨us, hus, _⟩ := bind_eq_ok.1 h
    exact ⟨us, hus⟩
  · rintro ⟨us, hus⟩
    exact ⟨us ++ unmatched ps qs, by rw [joinEntries, hus, ok_bind]⟩

/-- Entries are joined from the other side if the values with a partner are. -/
theorem exists_joinEntries_swap {ps qs rs : List (Node × Node)} (hps : Entries.Keyed ps)
    (hqs : Entries.Keyed qs) (h : joinEntries ps qs = .ok rs)
    (hvalue : ∀ p ∈ ps, ∀ q ∈ qs, ∀ w, p.2.join q.2 = .ok w → ∃ w', q.2.join p.2 = .ok w') :
    ∃ rs', joinEntries qs ps = .ok rs' := by
  refine exists_joinEntries_iff.2 fun q hq => ?_
  cases hat : Entries.at? q.1 ps with
  | none => exact ⟨q.2, rfl⟩
  | some v =>
    obtain ⟨p, hp, hpq, rfl⟩ := Entries.mem_of_at? hat
    obtain ⟨w, hw⟩ := exists_joinEntries_iff.1 ⟨rs, h⟩ p hp
    rw [Entries.at?_of_mem hqs hq (hps.wellFormed p hp)
      (eqv_symm (hps.wellFormed p hp) (hqs.wellFormed q hq) hpq)] at hw
    exact hvalue p hp q hq w hw

/-- Two documents can be joined from both sides or from neither. -/
theorem exists_join_swap {a b r : Node} (ha : a.WellFormed) (hb : b.WellFormed)
    (h : a.join b = .ok r) : ∃ r', b.join a = .ok r' := by
  induction b using induct_children generalizing a r with
  | step b ih =>
    have hr := joined_iff.1 h
    obtain ⟨rs', hrs'⟩ : ∃ rs', joinEntries b.fields a.fields = .ok rs' :=
      exists_joinEntries_swap ha.keyed hb.keyed hr.fields fun p hp q hq w hw =>
        ih q.2 (snd_mem_children hq) (ha.child (snd_mem_children hp))
          (hb.child (snd_mem_children hq)) hw
    cases hr with
    | leaf e e' hv => exact ⟨_, join_leaf e' e ((leaf_alike_comm _ _).trans hv)⟩
    | set e e' t es fs => exact ⟨_, join_set e' e t fs es⟩
    | dict e e' t _ => exact ⟨_, joined_iff.2 (.dict e' e t hrs')⟩
    | predicate e e' t nt nt' as bs _ =>
      exact ⟨_, joined_iff.2 (.predicate e' e t nt' nt bs as hrs')⟩
    | identity e e' i _ => exact ⟨_, joined_iff.2 (.identity e' e i hrs')⟩
    | claim e e' x p hs g _ =>
      exact ⟨_, joined_iff.2 (.claim e' e x p
        (eqv_symm (hb.child List.mem_cons_self) (ha.child List.mem_cons_self) hs) g hrs')⟩
    | verify e e' hs _ =>
      exact ⟨_, joined_iff.2 (.verify e' e
        (eqv_symm (hb.child List.mem_cons_self) (ha.child List.mem_cons_self) hs) hrs')⟩
    | reachable e e' m vt vt' ut ut' vs vs' uvs uvs' _ =>
      exact ⟨_, joined_iff.2 (.reachable e' e m vt' vt ut' ut vs' vs uvs' uvs hrs')⟩

/-! ## Joined entries from both sides -/

theorem at?_joinEntries_eq_none_iff {k : Node} (hk : k.WellFormed) {ps qs rs : List (Node × Node)}
    (hps : Entries.Keyed ps) (hqs : Entries.Keyed qs) (h : joinEntries ps qs = .ok rs) :
    Entries.at? k rs = none ↔ Entries.at? k ps = none ∧ Entries.at? k qs = none := by
  have hat := joinAt_joinEntries hk hps hqs h
  cases hp : Entries.at? k ps with
  | none =>
    rw [hp] at hat
    rw [← Except.ok.inj hat]
    simp
  | some v =>
    rw [hp] at hat
    obtain ⟨w, _, hw⟩ := bind_eq_ok.1 hat
    rw [← Except.ok.inj hw]
    simp

/-- The entries of the two joins are the same if the two joins of each value with its partner
are. -/
theorem same_joinEntries_iff {E : Node → Node → Prop} {ps qs rs rs' : List (Node × Node)}
    (hps : Entries.Keyed ps) (hqs : Entries.Keyed qs) (hpvalues : ∀ p ∈ ps, p.2.WellFormed)
    (hqvalues : ∀ q ∈ qs, q.2.WellFormed) (h : joinEntries ps qs = .ok rs)
    (h' : joinEntries qs ps = .ok rs')
    (hE : ∀ p ∈ ps, ∀ q ∈ qs, ∀ w w', p.2.join q.2 = .ok w → q.2.join p.2 = .ok w' →
      (w.eqv w' = true ↔ E p.2 q.2)) :
    Entries.Same rs rs' ↔ ∀ p ∈ ps, ∀ q ∈ qs, p.1.eqv q.1 = true → E p.2 q.2 := by
  have hboth : ∀ {k : Node} {p q : Node × Node}, k.WellFormed → p ∈ ps → q ∈ qs →
      Entries.at? k ps = some p.2 → Entries.at? k qs = some q.2 →
      (Entries.SameValue (Entries.at? k rs) (Entries.at? k rs') ↔ E p.2 q.2) := by
    intro k p q hk hp hq hatp hatq
    have hleft := joinAt_joinEntries hk hps hqs h
    have hright := joinAt_joinEntries hk hqs hps h'
    rw [hatp, hatq] at hleft hright
    obtain ⟨w, hw, hleft⟩ := bind_eq_ok.1 hleft
    obtain ⟨w', hw', hright⟩ := bind_eq_ok.1 hright
    rw [← Except.ok.inj hleft, ← Except.ok.inj hright, Entries.sameValue_some]
    exact hE p hp q hq w w' hw hw'
  constructor
  · intro hsame p hp q hq hpq
    have hp' := hps.wellFormed p hp
    have hatp := Entries.at?_of_mem hps hp hp' (eqv_refl hp'.distinctKeys)
    have hatq := Entries.at?_of_mem hqs hq hp' (eqv_symm hp' (hqs.wellFormed q hq) hpq)
    exact (hboth hp' hp hq hatp hatq).1 (hsame p.1 hp')
  · intro hall k hk
    have hleft := joinAt_joinEntries hk hps hqs h
    have hright := joinAt_joinEntries hk hqs hps h'
    cases hatp : Entries.at? k ps with
    | none =>
      rw [hatp] at hleft hright
      cases hatq : Entries.at? k qs with
      | none =>
        rw [hatq] at hleft hright
        rw [← Except.ok.inj hleft, ← Except.ok.inj hright]
        exact .none
      | some v =>
        obtain ⟨q, hq, _, rfl⟩ := Entries.mem_of_at? hatq
        rw [hatq] at hleft hright
        rw [← Except.ok.inj hleft, ← Except.ok.inj hright]
        exact .some (eqv_refl (hqvalues q hq).distinctKeys)
    | some v =>
      obtain ⟨p, hp, hpk, rfl⟩ := Entries.mem_of_at? hatp
      cases hatq : Entries.at? k qs with
      | none =>
        rw [hatp, hatq] at hleft hright
        rw [← Except.ok.inj hleft, ← Except.ok.inj hright]
        exact .some (eqv_refl (hpvalues p hp).distinctKeys)
      | some u =>
        obtain ⟨q, hq, hqk, rfl⟩ := Entries.mem_of_at? hatq
        have hpq : p.1.eqv q.1 = true := by
          rw [eqv_congr_right (hps.wellFormed p hp) (hqs.wellFormed q hq) hk hqk]
          exact hpk
        exact (hboth hk hp hq hatp hatq).2 (hall p hp q hq hpq)

/-! ## Nodes that are joined to each other -/

/-- In a join of `a` and `b` the nodes `x` and `y` are joined: they are the documents themselves, or
stand at equal keys of nodes that are joined. -/
inductive Together (x y : Node) : Node → Node → Prop where
  | self : Together x y x y
  | value {a b : Node} {p q : Node × Node} (hp : p ∈ a.fields) (hq : q ∈ b.fields)
      (hkey : p.1.eqv q.1 = true) (h : Together x y p.2 q.2) : Together x y a b

/-- Two lists of candidates say the same in a plain form, where an empty one does not stand. -/
def SameCandidates (t : String) (us : List Node) (t' : String) (us' : List Node) : Prop :=
  us = [] ∧ us' = [] ∨ (set none t us).eqv (set none t' us') = true

/-- The lists that a join of the two nodes unites come out the same from both sides: the arguments
of predicates and the verified addresses in order, the unverified candidates as a set, unless a
field of the user's hides it. The first of two tags is kept where the tags of named arguments
differ. -/
def IsEven : Node → Node → Prop
  | .predicate _ _ as nt _, .predicate _ _ bs nt' _ =>
    nt = nt' ∧
      List.Forall₂ (fun x y => x.eqv y = true) (NodeSet.addAll as bs) (NodeSet.addAll bs as)
  | .reachable _ _ _ vs ut uvs us, .reachable _ _ _ vs' ut' uvs' us' =>
    List.Forall₂ (fun x y => x.eqv y = true) (NodeSet.addAll vs vs') (NodeSet.addAll vs' vs) ∧
      (Entries.at? (ofString "unverified") us = none →
        Entries.at? (ofString "unverified") us' = none →
        SameCandidates ut (outstanding (NodeSet.addAll vs vs') (NodeSet.addAll uvs uvs'))
          ut' (outstanding (NodeSet.addAll vs' vs) (NodeSet.addAll uvs' uvs)))
  | _, _ => True

theorem forall_together_iff {P : Node → Node → Prop} {a b : Node} :
    (∀ x y, Together x y a b → P x y) ↔ P a b ∧ ∀ p ∈ a.fields, ∀ q ∈ b.fields,
      p.1.eqv q.1 = true → ∀ x y, Together x y p.2 q.2 → P x y := by
  constructor
  · intro h
    exact ⟨h a b .self, fun p hp q hq hkey x y hxy => h x y (.value hp hq hkey hxy)⟩
  · rintro ⟨hself, hvalues⟩ x y hxy
    cases hxy with
    | self => exact hself
    | value hp hq hkey hxy => exact hvalues _ hp _ hq hkey x y hxy

/-! ## The two joins of nodes -/

theorem tidy_ofString (s : String) : (ofString s).Tidy := ⟨rfl, rfl⟩

theorem eqv_ofString_self (s : String) : (ofString s).eqv (ofString s) = true :=
  eqv_refl (tidy_ofString s).2.distinctKeys

theorem tidy_nil : ∀ c ∈ entryNodes [], c.Tidy := fun _ h => absurd h List.not_mem_nil

theorem tidy_claimFields (p : PeerId) (g : List UInt8) :
    ∀ c ∈ entryNodes (claimFields p g), c.Tidy := by
  simp only [claimFields, forall_entryNodes, List.forall_mem_cons]
  exact ⟨⟨⟨rfl, rfl⟩, rfl, rfl⟩, ⟨⟨rfl, rfl⟩, rfl, rfl⟩, fun _ h => absurd h List.not_mem_nil⟩

theorem at?_reachableFields (k : Node) (m : ProbeMode) (t : String) (us : List Node) :
    Entries.at? k (reachableFields m t us) =
      if (ofString "check").eqv k then some (ofString m.name)
      else if (ofString "unverified").eqv k then
        if us.isEmpty then none else some (set none t us)
      else none := by
  rw [reachableFields, Entries.at?_cons]
  cases us with
  | nil => cases (ofString "unverified").eqv k <;> rfl
  | cons u us => exact congrArg (ite _ _) (Entries.at?_cons k _ [])

theorem tidy_reachableFields (m : ProbeMode) (t : String) (us : List Node) :
    ∀ p ∈ reachableFields m t us, p.1.Tidy := by
  cases us with
  | nil => exact List.forall_mem_singleton.2 ⟨rfl, rfl⟩
  | cons u us =>
    exact List.forall_mem_cons.2 ⟨⟨rfl, rfl⟩, List.forall_mem_singleton.2 ⟨rfl, rfl⟩⟩

theorem sameCandidates_iff {t t' : String} {us us' : List Node} : SameCandidates t us t' us' ↔
    Entries.SameValue
      (if (disassembleAll us).isEmpty then none else some (set none t (disassembleAll us)))
      (if (disassembleAll us').isEmpty then none else some (set none t' (disassembleAll us'))) := by
  have hset : ∀ t us, set none t (disassembleAll us) = (set none t us).disassemble := fun _ _ => rfl
  rw [SameCandidates, hset, hset]
  cases us with
  | nil =>
    cases us' with
    | nil => exact iff_of_true (.inl ⟨rfl, rfl⟩) .none
    | cons u' us' => simp [disassembleAll, eqv, disassemble, same]
  | cons u us =>
    cases us' with
    | nil => simp [disassembleAll, eqv, disassemble, same]
    | cons u' us' =>
      rw [disassembleAll, disassembleAll, List.isEmpty_cons, List.isEmpty_cons,
        if_neg Bool.false_ne_true, if_neg Bool.false_ne_true, Entries.sameValue_some,
        eqv_disassemble]
      simp

/-- The arguments that a reachability result has of its own are the same if its candidates are, or
if a field of the user's hides them. -/
theorem same_reachableFields_iff {rs : List (Node × Node)} (hrs : Entries.Keyed rs) (m : ProbeMode)
    (t t' : String) (us us' : List Node) :
    (∀ k : Node, k.WellFormed → Entries.at? k rs = none →
      Entries.SameValue (Entries.at? k (reachableFields m t (disassembleAll us)))
        (Entries.at? k (reachableFields m t' (disassembleAll us')))) ↔
      (Entries.at? (ofString "unverified") rs = none → SameCandidates t us t' us') := by
  simp only [at?_reachableFields, sameCandidates_iff]
  constructor
  · intro h hnone
    exact h (ofString "unverified") rfl hnone
  · intro h k hk hnone
    split
    · exact .some (eqv_ofString_self m.name)
    · split
      · rename_i hkey
        refine h ?_
        rw [(Entries.at?_congr (tidy_ofString _).2 hk hrs.wellFormed hkey).1]
        exact hnone
      · exact .none

/-- The two joins of nodes are equal if their entries are the same and the lists that are united
come out the same. -/
theorem eqv_joined_iff {a b r r' : Node} (ha : a.WellFormed) (hb : b.WellFormed)
    (hr : Joined a b r) (hr' : Joined b a r') :
    r.eqv r' = true ↔ IsEven a b ∧ Entries.Same r.fields r'.fields := by
  have hrwf := ha.join hb (joined_iff.2 hr)
  have hrwf' := hb.join ha (joined_iff.2 hr')
  have hkeyed := hrwf.keyed
  have hkeyed' := hrwf'.keyed
  have hkeys : ∀ k : Node, k.WellFormed →
      (Entries.at? k r.fields = none ↔ Entries.at? k r'.fields = none) := by
    intro k hk
    rw [at?_joinEntries_eq_none_iff hk ha.keyed hb.keyed hr.fields,
      at?_joinEntries_eq_none_iff hk hb.keyed ha.keyed hr'.fields, and_comm]
  cases hr with
  | leaf e e' hv =>
    cases hr' with
    | leaf _ _ hv' => exact iff_of_true hv ⟨trivial, fun k _ => .none⟩
  | dict e e' t h =>
    cases hr' with
    | dict _ _ _ h' =>
      rw [eqv_dict_iff hrwf hrwf']
      exact and_congr_left fun _ => iff_of_true rfl trivial
  | set e e' t es fs =>
    cases hr' with
    | set =>
      refine iff_of_true (eqv_set_of_isIn hrwf hrwf' fun x hx => ?_) ⟨trivial, fun k _ => .none⟩
      exact NodeSet.isIn_addAll_comm hx (fun n hn => ha.child hn) fun n hn => hb.child hn
  | predicate e e' t nt nt' as bs h =>
    cases hr' with
    | predicate _ _ _ _ _ _ _ h' =>
      rw [eqv_iff_of_disassemble hrwf hrwf' rfl rfl, forall₂_eqv_disassembleAll,
        Entries.same_disassembleEntries]
      simp only [IsEven, fields, true_and]
      tauto
  | identity e e' i h =>
    cases hr' with
    | identity _ _ _ h' =>
      simp only [fields] at hkeyed hkeyed' hkeys ⊢
      rw [eqv_iff_of_disassemble hrwf hrwf' rfl rfl, Entries.same_fields_self_iff
        tidy_nil hkeyed hkeyed' hkeys]
      simp [IsEven, eqv_ofString_self]
  | claim e e' x p hs g h =>
    cases hr' with
    | claim _ _ _ _ hs' _ h' =>
      simp only [fields] at hkeyed hkeyed' hkeys ⊢
      rw [eqv_iff_of_disassemble hrwf hrwf' rfl rfl, Entries.same_fields_self_iff
        (tidy_claimFields p g) hkeyed hkeyed' hkeys]
      simp [IsEven, eqv_disassemble, hs']
  | verify e e' hs h =>
    cases hr' with
    | verify _ _ hs' h' =>
      simp only [fields] at hkeyed hkeyed' hkeys ⊢
      rw [eqv_iff_of_disassemble hrwf hrwf' rfl rfl, Entries.same_fields_self_iff
        tidy_nil hkeyed hkeyed' hkeys]
      simp [IsEven, eqv_disassemble, hs']
  | reachable e e' m vt vt' ut ut' vs vs' uvs uvs' h =>
    cases hr' with
    | reachable _ _ _ _ _ _ _ _ _ _ _ h' =>
      simp only [fields] at hkeyed hkeyed' hkeys ⊢
      have hhidden := at?_joinEntries_eq_none_iff (k := ofString "unverified") rfl ha.keyed
        hb.keyed h
      rw [eqv_iff_of_disassemble hrwf hrwf' rfl rfl, forall₂_eqv_disassembleAll,
        Entries.same_fields_iff (tidy_reachableFields m _ _) (tidy_reachableFields m _ _)
          hkeyed hkeyed' hkeys, same_reachableFields_iff hkeyed]
      simp only [IsEven, true_and, hhidden, and_imp]
      tauto

/-! ## The two joins of documents -/

/-- A join that succeeds succeeds from the other side too, and the two are equal just if all nodes
that are joined in it come out the same from both sides. -/
theorem join_symm_iff {a b r : Node} (ha : a.WellFormed) (hb : b.WellFormed)
    (h : a.join b = .ok r) :
    ∃ r', b.join a = .ok r' ∧ (r.eqv r' = true ↔ ∀ x y, Together x y a b → IsEven x y) := by
  obtain ⟨r', h'⟩ := exists_join_swap ha hb h
  refine ⟨r', h', ?_⟩
  induction b using induct_children generalizing a r r' with
  | step b ih =>
    have hr := joined_iff.1 h
    have hr' := joined_iff.1 h'
    have hvalues : ∀ {n : Node}, n.WellFormed → ∀ p ∈ n.fields, p.2.WellFormed :=
      fun hn p hp => hn.child (snd_mem_children hp)
    rw [eqv_joined_iff ha hb hr hr', forall_together_iff,
      same_joinEntries_iff (E := fun v u => ∀ x y, Together x y v u → IsEven x y) ha.keyed hb.keyed
        (hvalues ha) (hvalues hb) hr.fields hr'.fields]
    exact fun p hp q hq w w' hw hw' =>
      ih q.2 (snd_mem_children hq) (hvalues ha p hp) (hvalues hb q hq) hw w' hw'

/-- The elements of `x` and the call of `f` at `y`. -/
def setAndCall (elements args : List String) : Node :=
  dict none "" [(ofString "x", set none "" (elements.map ofString)),
    (ofString "y", predicate none "f" (args.map ofString) "" [])]

/-- Sets are listed from the left side on, which equality does not see. -/
theorem setAndCall_join_symm :
    (setAndCall ["1"] ["3"]).join (setAndCall ["2"] ["3"]) = .ok (setAndCall ["1", "2"] ["3"]) ∧
      ∃ r, (setAndCall ["2"] ["3"]).join (setAndCall ["1"] ["3"]) = .ok r ∧
        (setAndCall ["1", "2"] ["3"]).eqv r = true := by
  have hjoin : (setAndCall ["1"] ["3"]).join (setAndCall ["2"] ["3"]) =
      .ok (setAndCall ["1", "2"] ["3"]) := rfl
  obtain ⟨r, hr, hiff⟩ := join_symm_iff (by decide) (by decide) hjoin
  have hset : ∀ x y, Together x y (set none "" (["1"].map ofString))
      (set none "" (["2"].map ofString)) → IsEven x y :=
    forall_together_iff.2 ⟨trivial, fun _ hp => absurd hp List.not_mem_nil⟩
  have hcall : ∀ x y, Together x y (predicate none "f" (["3"].map ofString) "" [])
      (predicate none "f" (["3"].map ofString) "" []) → IsEven x y :=
    forall_together_iff.2 ⟨⟨rfl, .cons rfl .nil⟩, fun _ hp => absurd hp List.not_mem_nil⟩
  have hother : (ofString "x").eqv (ofString "y") = false ∧
      (ofString "y").eqv (ofString "x") = false := by decide
  refine ⟨hjoin, r, hr, hiff.2 (forall_together_iff.2 ⟨trivial, ?_⟩)⟩
  simp only [setAndCall, fields, List.forall_mem_cons, hother, Bool.false_eq_true, false_implies,
    true_and, List.not_mem_nil, implies_true, and_true]
  exact ⟨fun _ => hset, fun _ => hcall⟩

/-- Two documents with the calls `f(s)` and `f(t)`. -/
def calls (s t : String) : Node :=
  dict none "" [(ofString "x", predicate none "f" [ofString s] "" []),
    (ofString "y", predicate none "f" [ofString t] "" [])]

/-- Arguments are listed from the left side on too, and equality goes by their order. -/
theorem calls_join_not_symm : (calls "1" "2").WellFormed ∧ (calls "2" "1").WellFormed ∧
    ∃ r r', (calls "1" "2").join (calls "2" "1") = .ok r ∧
      (calls "2" "1").join (calls "1" "2") = .ok r' ∧ r.eqv r' = false :=
  ⟨by decide, by decide, _, _, rfl, rfl, by decide⟩

end Node

end PeerRecords
