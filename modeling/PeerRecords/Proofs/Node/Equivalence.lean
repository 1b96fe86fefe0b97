import PeerRecords.Proofs.Node.Lookup
import Mathlib.Data.Fintype.Card
import Mathlib.Data.Fintype.EquivFin

/-
  Structural equality is an equivalence.
  `compareWith` is one step of a comparison that unfolds smart nodes as it meets them and asks one
  side only: each entry of the left has an equal value at the first equal key of the right. There
  is one function that follows this step at every depth, and it is `eqv` (`follows_iff`), which
  compares plain forms. Between well-formed documents it is an equivalence, and what is asked of one
  side pairs the entries and the elements of both (`eqv_equivalence`).
-/

namespace PeerRecords

/-- Two lists of one length, each item of the first with a partner and no two with the same, are
related through a bijection. -/
theorem exists_equiv_of_partners {α : Type} {R : α → α → Prop} {xs ys : List α}
    (hlen : xs.length = ys.length) (h : ∀ x ∈ xs, ∃ y ∈ ys, R x y)
    (hxs : xs.Pairwise fun x x' => ∀ y ∈ ys, R x y → ¬ R x' y) :
    ∃ σ : Fin xs.length ≃ Fin ys.length, ∀ i, R (xs.get i) (ys.get (σ i)) := by
  have hpartner : ∀ i : Fin xs.length, ∃ j : Fin ys.length, R (xs.get i) (ys.get j) := fun i => by
    obtain ⟨y, hy, hxy⟩ := h _ (xs.get_mem i)
    obtain ⟨j, rfl⟩ := List.get_of_mem hy
    exact ⟨j, hxy⟩
  choose f hf using hpartner
  have hinj : Function.Injective f := fun i i' hii => by
    have hle : ∀ {i i' : Fin xs.length}, f i = f i' → ¬ i < i' := fun {i i'} he hlt =>
      List.pairwise_iff_get.1 hxs i i' hlt _ (ys.get_mem _) (hf i) (he ▸ hf i')
    exact le_antisymm (not_lt.1 (hle hii.symm)) (not_lt.1 (hle hii))
  have hbij : Function.Bijective f :=
    (Fintype.bijective_iff_injective_and_card f).2 ⟨hinj, by simpa using hlen⟩
  exact ⟨Equiv.ofBijective f hbij, hf⟩

namespace Node

/-! ## One step of a comparison -/

section Step

variable (eq : Node → Node → Bool)

/-- Each entry has an equal value at the first equal key of the other list. -/
def coversWith (ps qs : List (Node × Node)) : Bool :=
  ps.all fun p => (qs.find? fun q => eq q.1 p.1).any fun q => eq q.2 p.2

/-- Each element is equal to one of the other list. -/
def containsWith (es fs : List Node) : Bool := es.all fun e => fs.any fun f => eq f e

/-- Arguments are equal one by one. -/
def matchesWith : List Node → List Node → Bool
  | [], [] => true
  | a :: as, b :: bs => eq a b && matchesWith as bs
  | _, _ => false

/-- Compares two nodes, neither of them smart, by a comparison of what they consist of. -/
def compareParts : Node → Node → Bool
  | .leaf _ v, .leaf _ w => v.alike w
  | .dict _ t ps, .dict _ u qs => t == u && ps.length == qs.length && coversWith eq ps qs
  | .set _ t es, .set _ u fs => t == u && es.length == fs.length && containsWith eq es fs
  | .predicate _ t as nt ps, .predicate _ u bs nu qs =>
    t == u && matchesWith eq as bs && nt == nu && ps.length == qs.length && coversWith eq ps qs
  | _, _ => false

/-- One step of a comparison. A smart node on the left is unfolded first, then one on the right. -/
def compareWith (a b : Node) : Bool :=
  if a.isSmart then eq a.disassemble b
  else if b.isSmart then eq a b.disassemble
  else compareParts eq a b

variable {eq} {a b : Node}

theorem compareWith_of_isSmart_left (ha : a.isSmart = true) :
    compareWith eq a b = eq a.disassemble b := if_pos ha

theorem compareWith_of_isSmart_right (ha : a.isSmart = false) (hb : b.isSmart = true) :
    compareWith eq a b = eq a b.disassemble := by
  rw [compareWith, ha, hb]
  rfl

theorem compareWith_of_not_isSmart (ha : a.isSmart = false) (hb : b.isSmart = false) :
    compareWith eq a b = compareParts eq a b := by
  rw [compareWith, ha, hb]
  rfl

end Step

theorem eqv_disassemble_right (a b : Node) : a.eqv b.disassemble = a.eqv b := by
  simp [eqv]

theorem covered_disassembleEntries (ps qs : List (Node × Node)) :
    covered (disassembleEntries ps) (disassembleEntries qs) = coversWith eqv ps qs := by
  rw [Bool.eq_iff_iff, covered_iff, coversWith, List.all_eq_true, disassembleEntries_eq_map,
    disassembleEntries_eq_map, List.forall_mem_map]
  refine forall₂_congr fun p _ => ?_
  rw [List.find?_map]
  simp only [Function.comp_def, same_true, eqv]
  cases qs.find? fun q => same false q.1.disassemble p.1.disassemble <;> simp

theorem contained_disassembleAll (es fs : List Node) :
    contained (disassembleAll es) (disassembleAll fs) = containsWith eqv es fs := by
  rw [Bool.eq_iff_iff, contained_iff, containsWith, List.all_eq_true, disassembleAll_eq_map,
    disassembleAll_eq_map, List.forall_mem_map]
  refine forall₂_congr fun e _ => ?_
  simp only [List.any_eq_true, List.mem_map, exists_exists_and_eq_and, same_true, eqv]

theorem pointwise_disassembleAll (as bs : List Node) :
    pointwise false (disassembleAll as) (disassembleAll bs) = matchesWith eqv as bs := by
  induction as generalizing bs with
  | nil => cases bs <;> rfl
  | cons a as ih =>
    cases bs with
    | nil => rfl
    | cons b bs => rw [disassembleAll, disassembleAll, pointwise, ih, matchesWith, eqv]

theorem eqv_eq_compareParts {a b : Node} (ha : a.isSmart = false) (hb : b.isSmart = false) :
    a.eqv b = compareParts eqv a b := by
  have hentries : ∀ ps : List (Node × Node), (disassembleEntries ps).length = ps.length :=
    fun ps => by rw [disassembleEntries_eq_map, List.length_map]
  have hnodes : ∀ ns : List Node, (disassembleAll ns).length = ns.length :=
    fun ns => by rw [disassembleAll_eq_map, List.length_map]
  cases a with
  | leaf e v => cases b <;> rfl
  | dict e t ps =>
    cases b with
    | dict e' u qs =>
      simp [eqv, disassemble, same, compareParts, hentries, covered_disassembleEntries]
    | _ => rfl
  | set e t es =>
    cases b with
    | set e' u fs => simp [eqv, disassemble, same, compareParts, hnodes, contained_disassembleAll]
    | _ => rfl
  | predicate e t as nt ps =>
    cases b with
    | predicate e' u bs nu qs =>
      simp [eqv, disassemble, same, compareParts, hentries, covered_disassembleEntries,
        pointwise_disassembleAll]
    | _ => first | rfl | cases hb
  | _ => cases ha

/-- Structural equality follows the step. -/
theorem eqv_eq_compareWith (a b : Node) : a.eqv b = compareWith eqv a b := by
  cases ha : a.isSmart with
  | true => rw [compareWith_of_isSmart_left ha, eqv_disassemble_left]
  | false =>
    cases hb : b.isSmart with
    | true => rw [compareWith_of_isSmart_right ha hb, eqv_disassemble_right]
    | false => rw [compareWith_of_not_isSmart ha hb, eqv_eq_compareParts ha hb]

/-! ## The step determines the comparison -/

theorem coversWith_congr {f g : Node → Node → Bool} {ps qs : List (Node × Node)}
    (h : ∀ c ∈ entryNodes ps, ∀ d ∈ entryNodes qs, f d c = g d c) :
    coversWith f ps qs = coversWith g ps qs := by
  rw [Bool.eq_iff_iff, coversWith, coversWith, List.all_eq_true, List.all_eq_true]
  refine forall₂_congr fun p hp => ?_
  have hfind : qs.find? (fun q => f q.1 p.1) = qs.find? fun q => g q.1 p.1 :=
    List.find?_congr fun q hq => h _ (fst_mem_entryNodes hp) _ (fst_mem_entryNodes hq)
  rw [hfind]
  cases hq : qs.find? fun q => g q.1 p.1 with
  | none => rfl
  | some q =>
    rw [Option.any_some, Option.any_some,
      h _ (snd_mem_entryNodes hp) _ (snd_mem_entryNodes (List.mem_of_find?_eq_some hq))]

theorem containsWith_congr {f g : Node → Node → Bool} {es fs : List Node}
    (h : ∀ c ∈ es, ∀ d ∈ fs, f d c = g d c) : containsWith f es fs = containsWith g es fs := by
  rw [Bool.eq_iff_iff, containsWith, containsWith, List.all_eq_true, List.all_eq_true]
  refine forall₂_congr fun c hc => ?_
  rw [List.any_eq_true, List.any_eq_true]
  exact exists_congr fun d => and_congr_right fun hd => by rw [h c hc d hd]

theorem matchesWith_congr {f g : Node → Node → Bool} {as bs : List Node}
    (h : ∀ c ∈ as, ∀ d ∈ bs, f c d = g c d) : matchesWith f as bs = matchesWith g as bs := by
  induction as generalizing bs with
  | nil => cases bs <;> rfl
  | cons a as ih =>
    cases bs with
    | nil => rfl
    | cons b bs =>
      rw [matchesWith, matchesWith, h a List.mem_cons_self b List.mem_cons_self,
        ih fun c hc d hd => h c (List.mem_cons_of_mem _ hc) d (List.mem_cons_of_mem _ hd)]

/-- Comparisons that agree on what two nodes consist of, whichever side asks. -/
theorem compareParts_congr {f g : Node → Node → Bool} {a b : Node}
    (h : ∀ c ∈ a.children, ∀ d ∈ b.children, f c d = g c d ∧ f d c = g d c) :
    compareParts f a b = compareParts g a b := by
  cases a with
  | leaf e v => cases b <;> rfl
  | dict e t ps =>
    cases b with
    | dict e' u qs =>
      rw [compareParts, compareParts, coversWith_congr fun c hc d hd => (h c hc d hd).2]
    | _ => rfl
  | set e t es =>
    cases b with
    | set e' u fs =>
      have hes : containsWith f es fs = containsWith g es fs :=
        containsWith_congr fun c hc d hd => (h c hc d hd).2
      rw [compareParts, compareParts, hes]
    | _ => rfl
  | predicate e t as nt ps =>
    cases b with
    | predicate e' u bs nu qs =>
      rw [compareParts, compareParts,
        matchesWith_congr fun c hc d hd =>
          (h c (List.mem_append_left _ hc) d (List.mem_append_left _ hd)).1,
        coversWith_congr fun c hc d hd =>
          (h c (List.mem_append_right _ hc) d (List.mem_append_right _ hd)).2]
    | _ => rfl
  | _ => cases b <;> rfl

/-- How many of two nodes are not plain. -/
def unplain (a b : Node) : Nat := (if a.isPlain then 0 else 1) + if b.isPlain then 0 else 1

theorem isPlain_of_isSmart {a : Node} (h : a.isSmart = true) : a.isPlain = false := by
  cases a <;> first | rfl | cases h

theorem unplain_disassemble_left {a : Node} (ha : a.isSmart = true) (b : Node) :
    unplain a.disassemble b < unplain a b := by
  simp [unplain, isPlain_disassemble, isPlain_of_isSmart ha]

theorem unplain_disassemble_right (a : Node) {b : Node} (hb : b.isSmart = true) :
    unplain a b.disassemble < unplain a b := by
  simp [unplain, isPlain_disassemble, isPlain_of_isSmart hb]

theorem unplain_children {a b c d : Node} (hc : c ∈ a.children) (hd : d ∈ b.children) :
    unplain c d ≤ unplain a b := by
  have hle : ∀ {n m : Node}, m ∈ n.children →
      (if m.isPlain then 0 else 1) ≤ if n.isPlain then 0 else 1 := fun {n m} hm => by
    cases hn : n.isPlain with
    | true => simp [(isPlain_iff_children.1 hn).2 m hm]
    | false => cases m.isPlain <;> simp
  exact Nat.add_le_add (hle hc) (hle hd)

theorem unplain_comm (a b : Node) : unplain a b = unplain b a := Nat.add_comm _ _

/-- A comparison that follows the step at every depth is structural equality. Unfolding a smart node
can make it larger, but leaves it plain. -/
theorem eqv_of_follows {f : Node → Node → Bool} (hf : ∀ a b, f a b = compareWith f a b)
    (a b : Node) : f a b = a.eqv b := by
  rw [hf, eqv_eq_compareWith]
  cases ha : a.isSmart with
  | true =>
    rw [compareWith_of_isSmart_left ha, compareWith_of_isSmart_left ha]
    exact eqv_of_follows hf a.disassemble b
  | false =>
    cases hb : b.isSmart with
    | true =>
      rw [compareWith_of_isSmart_right ha hb, compareWith_of_isSmart_right ha hb]
      exact eqv_of_follows hf a b.disassemble
    | false =>
      rw [compareWith_of_not_isSmart ha hb, compareWith_of_not_isSmart ha hb]
      exact compareParts_congr fun c hc d hd => ⟨eqv_of_follows hf c d, eqv_of_follows hf d c⟩
termination_by (unplain a b, sizeOf a + sizeOf b)
decreasing_by
  · have hsize := sizeOf_child hc
    have hsize' := sizeOf_child hd
    exact Prod.Lex.right' _ (unplain_children hc hd) (by omega)
  · have hsize := sizeOf_child hc
    have hsize' := sizeOf_child hd
    rw [unplain_comm d c]
    exact Prod.Lex.right' _ (unplain_children hc hd) (by omega)
  · exact Prod.Lex.left _ _ (unplain_disassemble_right a hb)
  · exact Prod.Lex.left _ _ (unplain_disassemble_left ha b)

/-- Structural equality is the one comparison that follows the step. -/
theorem follows_iff (f : Node → Node → Bool) :
    (∀ a b, f a b = compareWith f a b) ↔ f = eqv := by
  constructor
  · intro hf
    funext a b
    exact eqv_of_follows hf a b
  · rintro rfl
    exact eqv_eq_compareWith

/-! ## Partners -/

/-- Nodes pairwise unequal have no equal partner in common. -/
theorem not_eqv_of_not_eqv {a a' b : Node} (ha : a.WellFormed) (ha' : a'.WellFormed)
    (hb : b.WellFormed) (h : a.eqv a' = false) (hab : a.eqv b = true) : ¬ a'.eqv b = true := by
  intro hab'
  rw [eqv_trans ha hb ha' hab (eqv_symm ha' hb hab')] at h
  cases h

/-- Equal dicts have as many entries, and these correspond one to one, keys and values equal. -/
theorem exists_equiv_of_eqv_dict {e e' : Expiry} {t u : String} {ps qs : List (Node × Node)}
    (ha : (dict e t ps).WellFormed) (hb : (dict e' u qs).WellFormed)
    (h : (dict e t ps).eqv (dict e' u qs) = true) : ps.length = qs.length ∧
      ∃ σ : Fin ps.length ≃ Fin qs.length, ∀ i,
        (ps.get i).1.eqv (qs.get (σ i)).1 = true ∧ (ps.get i).2.eqv (qs.get (σ i)).2 = true := by
  rw [eqv_eq_compareParts rfl rfl, compareParts, Bool.and_eq_true, Bool.and_eq_true, coversWith,
    List.all_eq_true] at h
  have hlen : ps.length = qs.length := of_decide_eq_true h.1.2
  have hkey : ∀ p ∈ ps, p.1.WellFormed := fun p hp => ha.child (fst_mem_entryNodes hp)
  have hkey' : ∀ q ∈ qs, q.1.WellFormed := fun q hq => hb.child (fst_mem_entryNodes hq)
  refine ⟨hlen, exists_equiv_of_partners hlen (R := fun p q =>
    p.1.eqv q.1 = true ∧ p.2.eqv q.2 = true) (fun p hp => ?_) ?_⟩
  · obtain ⟨q, hfind, hvalue⟩ := (Option.any_eq_true _ _).1 (h.2 p hp)
    have hq := List.mem_of_find?_eq_some hfind
    have hkeys : q.1.eqv p.1 = true :=
      List.find?_some (p := fun r : Node × Node => r.1.eqv p.1) hfind
    exact ⟨q, hq, eqv_symm (hkey' q hq) (hkey p hp) hkeys,
      eqv_symm (hb.child (snd_mem_entryNodes hq)) (ha.child (snd_mem_entryNodes hp)) hvalue⟩
  · have hdistinct := List.pairwise_map.1 (areDistinct_iff.1 (wellFormed_iff_children.1 ha).1)
    refine hdistinct.imp_of_mem fun hp hp' hne q hq hpq hpq' => ?_
    exact not_eqv_of_not_eqv (hkey _ hp) (hkey _ hp') (hkey' q hq) hne hpq.1 hpq'.1

/-- Equal sets have as many elements, and these correspond one to one. -/
theorem exists_equiv_of_eqv_set {e e' : Expiry} {t u : String} {es fs : List Node}
    (ha : (set e t es).WellFormed) (hb : (set e' u fs).WellFormed)
    (h : (set e t es).eqv (set e' u fs) = true) : es.length = fs.length ∧
      ∃ σ : Fin es.length ≃ Fin fs.length, ∀ i, (es.get i).eqv (fs.get (σ i)) = true := by
  rw [eqv_eq_compareParts rfl rfl, compareParts, Bool.and_eq_true, Bool.and_eq_true, containsWith,
    List.all_eq_true] at h
  have hlen : es.length = fs.length := of_decide_eq_true h.1.2
  refine ⟨hlen, exists_equiv_of_partners hlen (R := fun x y => x.eqv y = true)
    (fun x hx => ?_) ?_⟩
  · obtain ⟨y, hy, hyx⟩ := List.any_eq_true.1 (h.2 x hx)
    exact ⟨y, hy, eqv_symm (hb.child hy) (ha.child hx) hyx⟩
  · refine (areDistinct_iff.1 (wellFormed_iff_children.1 ha).1).imp_of_mem ?_
    exact fun hx hx' hne y hy => not_eqv_of_not_eqv (ha.child hx) (ha.child hx') (hb.child hy) hne

/-- Structural equality follows the one-sided step and no other comparison does. Between documents
whose keys and elements are pairwise unequal at every depth it is an equivalence, nodes are equal
just if their plain forms are, and the entries of equal dicts and the elements of equal sets
correspond one to one. -/
theorem eqv_equivalence :
    (∀ f : Node → Node → Bool, (∀ a b, f a b = compareWith f a b) ↔ f = eqv) ∧
    (Equivalence fun a b : { n : Node // n.WellFormed } => a.1.eqv b.1 = true) ∧
    (∀ a b : Node, a.eqv b = a.disassemble.eqv b.disassemble) ∧
    (∀ e t ps e' u qs, (dict e t ps).WellFormed → (dict e' u qs).WellFormed →
      (dict e t ps).eqv (dict e' u qs) = true → ps.length = qs.length ∧
        ∃ σ : Fin ps.length ≃ Fin qs.length, ∀ i,
          (ps.get i).1.eqv (qs.get (σ i)).1 = true ∧ (ps.get i).2.eqv (qs.get (σ i)).2 = true) ∧
    ∀ e t es e' u fs, (set e t es).WellFormed → (set e' u fs).WellFormed →
      (set e t es).eqv (set e' u fs) = true → es.length = fs.length ∧
        ∃ σ : Fin es.length ≃ Fin fs.length, ∀ i, (es.get i).eqv (fs.get (σ i)) = true := by
  refine ⟨follows_iff, ⟨fun a => ?_, fun {a b} h => ?_, fun {a b c} hab hbc => ?_⟩,
    fun a b => (eqv_disassemble a b).symm, ?_, ?_⟩
  · exact eqv_refl a.2.distinctKeys
  · exact eqv_symm a.2 b.2 h
  · exact eqv_trans a.2 b.2 c.2 hab hbc
  · exact fun e t ps e' u qs => exists_equiv_of_eqv_dict
  · exact fun e t es e' u fs => exists_equiv_of_eqv_set

/-- Two dicts with their entries in different orders, one value a smart node in the first and its
predicate in the second. -/
theorem eqv_equivalence_reordered :
    let ps := [(ofString "x", ofString "1"), (ofString "y", identity none (.cid "c") [])]
    let qs := [(ofString "y", predicate none "cid" [ofString "c"] "" []),
      (ofString "x", ofString "1")]
    (dict none "d" ps).eqv (dict none "d" qs) = true ∧
      (dict none "d" qs).eqv (dict none "d" ps) = true ∧
      ∃ σ : Fin ps.length ≃ Fin qs.length, ∀ i,
        (ps.get i).1.eqv (qs.get (σ i)).1 = true ∧ (ps.get i).2.eqv (qs.get (σ i)).2 = true := by
  intro ps qs
  have ha : (dict none "d" ps).WellFormed := by decide
  have hb : (dict none "d" qs).WellFormed := by decide
  have hab : (dict none "d" ps).eqv (dict none "d" qs) = true := by decide
  obtain ⟨-, hequiv, -, hdicts, -⟩ := eqv_equivalence
  exact ⟨hab, @Equivalence.symm _ _ hequiv ⟨_, ha⟩ ⟨_, hb⟩ hab,
    (hdicts _ _ _ _ _ _ ha hb hab).2⟩

end Node

end PeerRecords
