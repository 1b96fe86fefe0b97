import PeerRecords.Proofs.Node.Parts
import PeerRecords.Proofs.Node.Pairing
import Mathlib.Data.List.Find
import Mathlib.Data.List.Pairwise

/-
  Structural equality.
  `same` looks entries and elements up on one side for each one of the other; `Alike` pairs them
  off: two plain trees are alike when the entries or elements of one are those of the other in
  some order, pair by pair alike. `Alike` is an equivalence on all nodes (`Alike.refl`,
  `Alike.symm`, `Alike.trans`), and on tidy trees, plain and without repeated keys and elements,
  it is what `same` decides (`same_iff_alike`).
-/

namespace PeerRecords.Node

/-! ## Equality as it is computed, list by list -/

theorem covered_iff {ps qs : List (Node × Node)} :
    covered ps qs = true ↔
      ∀ p ∈ ps, ∃ q, qs.find? (fun q => same true p.1 q.1) = some q ∧ same true p.2 q.2 = true := by
  induction ps with
  | nil => simp [covered]
  | cons p ps ih =>
    obtain ⟨k, v⟩ := p
    rw [covered, Bool.and_eq_true, ih, List.forall_mem_cons]
    refine and_congr_left fun _ => ?_
    cases qs.find? fun q => same true k q.1 <;> simp

theorem answers_iff {ps : List (Node × Node)} {q : Node × Node} :
    answers ps q = true ↔
      ∃ p, ps.find? (fun p => same false p.1 q.1) = some p ∧ same false p.2 q.2 = true := by
  induction ps with
  | nil => simp [answers]
  | cons p ps ih =>
    obtain ⟨k, v⟩ := p
    rw [answers, List.find?_cons]
    cases h : same false k q.1 <;> simp [ih]

theorem contained_iff {es fs : List Node} :
    contained es fs = true ↔ ∀ e ∈ es, ∃ f ∈ fs, same true e f = true := by
  induction es with
  | nil => simp [contained]
  | cons e es ih => simp [contained, ih]

theorem holds_iff {es : List Node} {f : Node} :
    holds es f = true ↔ ∃ e ∈ es, same false e f = true := by
  induction es with
  | nil => simp [holds]
  | cons e es ih => simp [holds, ih]

theorem pointwise_iff {flip : Bool} {as bs : List Node} :
    pointwise flip as bs = true ↔ List.Forall₂ (fun a b => same flip a b = true) as bs := by
  induction as generalizing bs with
  | nil => cases bs <;> simp [pointwise]
  | cons a as ih => cases bs <;> simp [pointwise, ih]

/-! ## Which side asks -/

theorem leaf_alike_comm (v w : Leaf) : v.alike w = w.alike v := by
  cases v <;> cases w <;> simp [Leaf.alike, Decimal.alike, eq_comm]

/-- Asking with the sides changed: what both questions of a node come to, for every other node. -/
def Turns (n : Node) : Prop :=
  ∀ m, same true n m = same false m n ∧ same false n m = same true m n

theorem all_answers_eq {ps qs : List (Node × Node)} (h : ∀ p ∈ ps, Turns p.1 ∧ Turns p.2) :
    (qs.all fun q => answers ps q) = covered qs ps := by
  rw [Bool.eq_iff_iff, covered_iff, List.all_eq_true]
  refine forall₂_congr fun q _ => ?_
  rw [answers_iff]
  have hfind : ps.find? (fun p => same false p.1 q.1) = ps.find? fun p => same true q.1 p.1 :=
    List.find?_congr fun p hp => ((h p hp).1 q.1).2
  rw [hfind]
  refine exists_congr fun p => and_congr_right fun hp => ?_
  rw [((h p (List.mem_of_find?_eq_some hp)).2 q.2).2]

theorem covered_eq {ps qs : List (Node × Node)} (h : ∀ p ∈ ps, Turns p.1 ∧ Turns p.2) :
    covered ps qs = ps.all fun p => answers qs p := by
  rw [Bool.eq_iff_iff, covered_iff, List.all_eq_true]
  refine forall₂_congr fun p hp => ?_
  rw [answers_iff]
  have hfind : qs.find? (fun q => same true p.1 q.1) = qs.find? fun q => same false q.1 p.1 :=
    List.find?_congr fun q _ => ((h p hp).1 q.1).1
  rw [hfind]
  refine exists_congr fun q => and_congr_right fun _ => ?_
  rw [((h p hp).2 q.2).1]

theorem all_holds_eq {es fs : List Node} (h : ∀ e ∈ es, Turns e) :
    (fs.all fun f => holds es f) = contained fs es := by
  rw [Bool.eq_iff_iff, contained_iff, List.all_eq_true]
  refine forall₂_congr fun f _ => ?_
  rw [holds_iff]
  exact exists_congr fun e => and_congr_right fun he => by rw [(h e he f).2]

theorem contained_eq {es fs : List Node} (h : ∀ e ∈ es, Turns e) :
    contained es fs = es.all fun e => holds fs e := by
  rw [Bool.eq_iff_iff, contained_iff, List.all_eq_true]
  refine forall₂_congr fun e he => ?_
  rw [holds_iff]
  exact exists_congr fun f => and_congr_right fun _ => by rw [(h e he f).1]

theorem pointwise_turn {as : List Node} (h : ∀ a ∈ as, Turns a) (bs : List Node) :
    pointwise true as bs = pointwise false bs as ∧
      pointwise false as bs = pointwise true bs as := by
  induction as generalizing bs with
  | nil => cases bs <;> simp [pointwise]
  | cons a as ih =>
    cases bs with
    | nil => simp [pointwise]
    | cons b bs =>
      have hb := ih (fun x hx => h x (List.mem_cons_of_mem _ hx)) bs
      have ha := h a List.mem_cons_self b
      rw [pointwise, pointwise, pointwise, pointwise, ha.1, ha.2, hb.1, hb.2]
      exact ⟨rfl, rfl⟩

/-- What one side asks of the other is what the other is asked by the one. -/
theorem turns (n : Node) : Turns n := by
  induction n using Node.induct with
  | leaf e v =>
    intro m
    cases m <;> simp [same, leaf_alike_comm v]
  | dict e t ps ih =>
    intro m
    cases m with
    | dict e' u qs =>
      simp only [same, if_true, Bool.false_eq_true, if_false, all_answers_eq ih, covered_eq ih]
      rw [BEq.comm (a := t), BEq.comm (a := ps.length)]
      exact ⟨rfl, rfl⟩
    | _ => simp [same]
  | set e t es ih =>
    intro m
    cases m with
    | set e' u fs =>
      simp only [same, if_true, Bool.false_eq_true, if_false, all_holds_eq ih, contained_eq ih]
      rw [BEq.comm (a := t), BEq.comm (a := es.length)]
      exact ⟨rfl, rfl⟩
    | _ => simp [same]
  | predicate e t as nt ps iha ihp =>
    intro m
    cases m with
    | predicate e' u bs nu qs =>
      simp only [same, if_true, Bool.false_eq_true, if_false, all_answers_eq ihp, covered_eq ihp,
        (pointwise_turn iha bs).1, (pointwise_turn iha bs).2]
      rw [BEq.comm (a := t), BEq.comm (a := nt), BEq.comm (a := ps.length)]
      exact ⟨rfl, rfl⟩
    | _ => simp [same]
  | identity e i us ih => intro m; cases m <;> simp [same]
  | claim e a b s g us ihs ihu => intro m; cases m <;> simp [same]
  | verify e s us ihs ihu => intro m; cases m <;> simp [same]
  | reachable e m vt vs ut uvs us ihv ihn ihu => intro m; cases m <;> simp [same]

theorem same_true (a b : Node) : same true a b = same false b a := (turns a b).1

/-! ## Trees that are alike -/

mutual

/-- Two plain trees are one tree but for the order of entries and elements, the expirations and the
digits of decimal numbers. -/
def Alike : Node → Node → Prop
  | .leaf _ v, .leaf _ w => v.alike w = true
  | .dict _ t ps, .dict _ u qs => t = u ∧ ∃ rs, AlikeEntries ps rs ∧ rs.Perm qs
  | .set _ t es, .set _ u fs => t = u ∧ ∃ gs, AlikeAll es gs ∧ gs.Perm fs
  | .predicate _ t as nt ps, .predicate _ u bs nu qs =>
    t = u ∧ AlikeAll as bs ∧ nt = nu ∧ ∃ rs, AlikeEntries ps rs ∧ rs.Perm qs
  | _, _ => False
termination_by structural n => n

/-- Nodes that are alike one by one. -/
def AlikeAll : List Node → List Node → Prop
  | [], [] => True
  | a :: as, b :: bs => Alike a b ∧ AlikeAll as bs
  | _, _ => False
termination_by structural as => as

/-- Entries that are alike one by one, in key and value. -/
def AlikeEntries : List (Node × Node) → List (Node × Node) → Prop
  | [], [] => True
  | (k, v) :: ps, q :: qs => Alike k q.1 ∧ Alike v q.2 ∧ AlikeEntries ps qs
  | _, _ => False
termination_by structural ps => ps

end

/-- Two entries are alike in key and value. -/
def AlikeEntry (p q : Node × Node) : Prop := Alike p.1 q.1 ∧ Alike p.2 q.2

theorem alikeAll_iff {as bs : List Node} : AlikeAll as bs ↔ List.Forall₂ Alike as bs := by
  induction as generalizing bs with
  | nil => cases bs <;> simp [AlikeAll]
  | cons a as ih => cases bs <;> simp [AlikeAll, ih]

theorem alikeEntries_iff {ps qs : List (Node × Node)} :
    AlikeEntries ps qs ↔ List.Forall₂ AlikeEntry ps qs := by
  induction ps generalizing qs with
  | nil => cases qs <;> simp [AlikeEntries]
  | cons p ps ih =>
    obtain ⟨k, v⟩ := p
    cases qs <;> simp [AlikeEntries, AlikeEntry, ih, and_assoc]

@[simp] theorem alike_leaf {e e' : Expiry} {v w : Leaf} :
    Alike (.leaf e v) (.leaf e' w) ↔ v.alike w = true := Iff.rfl

theorem alike_dict {e e' : Expiry} {t u : String} {ps qs : List (Node × Node)} :
    Alike (.dict e t ps) (.dict e' u qs) ↔ t = u ∧ PairedOff AlikeEntry ps qs := by
  simp only [Alike, PairedOff, alikeEntries_iff]

theorem alike_set {e e' : Expiry} {t u : String} {es fs : List Node} :
    Alike (.set e t es) (.set e' u fs) ↔ t = u ∧ PairedOff Alike es fs := by
  simp only [Alike, PairedOff, alikeAll_iff]

theorem alike_predicate {e e' : Expiry} {t u nt nu : String} {as bs : List Node}
    {ps qs : List (Node × Node)} :
    Alike (.predicate e t as nt ps) (.predicate e' u bs nu qs) ↔
      t = u ∧ List.Forall₂ Alike as bs ∧ nt = nu ∧ PairedOff AlikeEntry ps qs := by
  simp only [Alike, PairedOff, alikeEntries_iff, alikeAll_iff]

theorem leaf_alike_refl (v : Leaf) : v.alike v = true := by
  cases v <;> simp [Leaf.alike, Decimal.alike]

theorem leaf_alike_trans {u v w : Leaf} (huv : u.alike v = true) (hvw : v.alike w = true) :
    u.alike w = true := by
  cases u <;> cases v <;> cases w <;> simp_all [Leaf.alike, Decimal.alike]

/-- A plain tree is like itself. -/
theorem Alike.refl {n : Node} (h : n.isPlain = true) : Alike n n := by
  induction n using Node.induct with
  | leaf e v => exact leaf_alike_refl v
  | dict e t ps ih =>
    have hc := (isPlain_iff_children.1 h).2
    exact alike_dict.2 ⟨rfl, .refl fun p hp => ⟨(ih p hp).1 (hc _ (fst_mem_entryNodes hp)),
      (ih p hp).2 (hc _ (snd_mem_entryNodes hp))⟩⟩
  | set e t es ih =>
    have hc := (isPlain_iff_children.1 h).2
    exact alike_set.2 ⟨rfl, .refl fun n hn => ih n hn (hc n hn)⟩
  | predicate e t as nt ps iha ihp =>
    have hc := (isPlain_iff_children.1 h).2
    refine alike_predicate.2 ⟨rfl, List.forall₂_same.2 fun n hn => ?_, rfl, .refl fun p hp => ?_⟩
    · exact iha n hn (hc n (List.mem_append_left _ hn))
    · exact ⟨(ihp p hp).1 (hc _ (List.mem_append_right _ (fst_mem_entryNodes hp))),
        (ihp p hp).2 (hc _ (List.mem_append_right _ (snd_mem_entryNodes hp)))⟩
  | identity e i us ih => simp [isPlain] at h
  | claim e a b s g us ihs ihu => simp [isPlain] at h
  | verify e s us ihs ihu => simp [isPlain] at h
  | reachable e m vt vs ut uvs us ihv ihn ihu => simp [isPlain] at h

theorem Alike.symm {a b : Node} (h : Alike a b) : Alike b a := by
  induction a using Node.induct generalizing b with
  | leaf e v =>
    cases b with
    | leaf e' w => exact (leaf_alike_comm v w).symm.trans h
    | _ => exact h.elim
  | dict e t ps ih =>
    cases b with
    | dict e' u qs =>
      obtain ⟨rfl, hps⟩ := alike_dict.1 h
      exact alike_dict.2 ⟨rfl, hps.symm fun p hp q hpq => ⟨(ih p hp).1 hpq.1, (ih p hp).2 hpq.2⟩⟩
    | _ => exact h.elim
  | set e t es ih =>
    cases b with
    | set e' u fs =>
      obtain ⟨rfl, hes⟩ := alike_set.1 h
      exact alike_set.2 ⟨rfl, hes.symm fun n hn m hnm => ih n hn hnm⟩
    | _ => exact h.elim
  | predicate e t as nt ps iha ihp =>
    cases b with
    | predicate e' u bs nu qs =>
      obtain ⟨rfl, has, rfl, hps⟩ := alike_predicate.1 h
      refine alike_predicate.2 ⟨rfl, ?_, rfl,
        hps.symm fun p hp q hpq => ⟨(ihp p hp).1 hpq.1, (ihp p hp).2 hpq.2⟩⟩
      exact List.Forall₂.flip (R := Alike)
        (forall₂_of_mem (S := fun x y => Alike y x) has fun n hn m hnm => iha n hn hnm)
    | _ => exact h.elim
  | identity e i us ih => exact h.elim
  | claim e a b s g us ihs ihu => exact h.elim
  | verify e s us ihs ihu => exact h.elim
  | reachable e m vt vs ut uvs us ihv ihn ihu => exact h.elim

theorem alike_comm {a b : Node} : Alike a b ↔ Alike b a := ⟨.symm, .symm⟩

theorem Alike.trans {a b c : Node} (hab : Alike a b) (hbc : Alike b c) : Alike a c := by
  induction a using Node.induct generalizing b c with
  | leaf e v =>
    cases b with
    | leaf e' w =>
      cases c with
      | leaf e'' x => exact leaf_alike_trans hab hbc
      | _ => exact hbc.elim
    | _ => exact hab.elim
  | dict e t ps ih =>
    cases b with
    | dict e' u qs =>
      cases c with
      | dict e'' w rs =>
        obtain ⟨rfl, hpq⟩ := alike_dict.1 hab
        obtain ⟨rfl, hqr⟩ := alike_dict.1 hbc
        exact alike_dict.2 ⟨rfl, hpq.trans hqr fun p hp q r hpq hqr =>
          ⟨(ih p hp).1 hpq.1 hqr.1, (ih p hp).2 hpq.2 hqr.2⟩⟩
      | _ => exact hbc.elim
    | _ => exact hab.elim
  | set e t es ih =>
    cases b with
    | set e' u fs =>
      cases c with
      | set e'' w gs =>
        obtain ⟨rfl, hef⟩ := alike_set.1 hab
        obtain ⟨rfl, hfg⟩ := alike_set.1 hbc
        exact alike_set.2 ⟨rfl, hef.trans hfg fun x hx y z hxy hyz => ih x hx hxy hyz⟩
      | _ => exact hbc.elim
    | _ => exact hab.elim
  | predicate e t as nt ps iha ihp =>
    cases b with
    | predicate e' u bs nu qs =>
      cases c with
      | predicate e'' w cs nw rs =>
        obtain ⟨rfl, has, rfl, hpq⟩ := alike_predicate.1 hab
        obtain ⟨rfl, hbs, rfl, hqr⟩ := alike_predicate.1 hbc
        exact alike_predicate.2 ⟨rfl,
          forall₂_trans has hbs fun x hx y z hxy hyz => iha x hx hxy hyz, rfl,
          hpq.trans hqr fun p hp q r hpq hqr =>
            ⟨(ihp p hp).1 hpq.1 hqr.1, (ihp p hp).2 hpq.2 hqr.2⟩⟩
      | _ => exact hbc.elim
    | _ => exact hab.elim
  | identity e i us ih => exact hab.elim
  | claim e a b s g us ihs ihu => exact hab.elim
  | verify e s us ihs ihu => exact hab.elim
  | reachable e m vt vs ut uvs us ihv ihn ihu => exact hab.elim

/-! ## Tidy trees -/

/-- A plain tree without repeated keys and elements. -/
def Tidy (n : Node) : Prop := n.isPlain = true ∧ n.WellFormed

theorem disassembleAll_eq_self {ns : List Node} (h : ∀ n ∈ ns, n.disassemble = n) :
    disassembleAll ns = ns := by
  rw [disassembleAll_eq_map]
  exact (List.map_congr_left h).trans (List.map_id _)

theorem disassembleEntries_eq_self {ps : List (Node × Node)}
    (h : ∀ p ∈ ps, p.1.disassemble = p.1 ∧ p.2.disassemble = p.2) :
    disassembleEntries ps = ps := by
  rw [disassembleEntries_eq_map]
  exact (List.map_congr_left fun p hp => Prod.ext (h p hp).1 (h p hp).2).trans (List.map_id _)

/-- A plain tree is its own plain form. -/
theorem disassemble_of_isPlain {n : Node} (h : n.isPlain = true) : n.disassemble = n := by
  induction n using Node.induct with
  | leaf e v => rfl
  | dict e t ps ih =>
    have hc := (isPlain_iff_children.1 h).2
    rw [disassemble, disassembleEntries_eq_self fun p hp =>
      ⟨(ih p hp).1 (hc _ (fst_mem_entryNodes hp)), (ih p hp).2 (hc _ (snd_mem_entryNodes hp))⟩]
  | set e t es ih =>
    have hc := (isPlain_iff_children.1 h).2
    rw [disassemble, disassembleAll_eq_self fun n hn => ih n hn (hc n hn)]
  | predicate e t as nt ps iha ihp =>
    have hc := (isPlain_iff_children.1 h).2
    rw [disassemble,
      disassembleAll_eq_self fun n hn => iha n hn (hc n (List.mem_append_left _ hn)),
      disassembleEntries_eq_self fun p hp =>
        ⟨(ihp p hp).1 (hc _ (List.mem_append_right _ (fst_mem_entryNodes hp))),
          (ihp p hp).2 (hc _ (List.mem_append_right _ (snd_mem_entryNodes hp)))⟩]
  | identity e i us ih => simp [isPlain] at h
  | claim e a b s g us ihs ihu => simp [isPlain] at h
  | verify e s us ihs ihu => simp [isPlain] at h
  | reachable e m vt vs ut uvs us ihv ihn ihu => simp [isPlain] at h

theorem eqv_of_isPlain {a b : Node} (ha : a.isPlain = true) (hb : b.isPlain = true) :
    a.eqv b = same false a b := by
  rw [eqv, disassemble_of_isPlain ha, disassemble_of_isPlain hb]

theorem Tidy.child {n c : Node} (h : n.Tidy) (hc : c ∈ n.children) : c.Tidy :=
  ⟨(isPlain_iff_children.1 h.1).2 c hc, (wellFormed_iff_children.1 h.2).2 c hc⟩

theorem areDistinct_iff {ns : List Node} :
    areDistinct ns = true ↔ ns.Pairwise fun n m => n.eqv m = false := by
  induction ns with
  | nil => simp [areDistinct]
  | cons n ns ih => simp [areDistinct, ih]

/-! ## Equality on tidy trees -/

theorem sizeOf_child {n c : Node} (h : c ∈ n.children) : sizeOf c < sizeOf n := by
  have entry : ∀ {ps : List (Node × Node)}, c ∈ entryNodes ps → sizeOf c < sizeOf ps := by
    intro ps hc
    obtain ⟨p, hp, hcp⟩ := mem_entryNodes.1 hc
    have hlt := List.sizeOf_lt_of_mem hp
    have hsize : sizeOf p = 1 + sizeOf p.1 + sizeOf p.2 := rfl
    obtain rfl | rfl := hcp <;> omega
  cases n with
  | leaf e v => exact absurd h List.not_mem_nil
  | dict e t ps =>
    have := entry h
    simp only [Node.dict.sizeOf_spec]
    omega
  | set e t es =>
    have hlt : sizeOf c < sizeOf es := List.sizeOf_lt_of_mem h
    simp only [Node.set.sizeOf_spec]
    omega
  | predicate e t as nt ps =>
    simp only [Node.predicate.sizeOf_spec]
    rcases List.mem_append.1 h with h | h
    · have := List.sizeOf_lt_of_mem h
      omega
    · have := entry h
      omega
  | identity e i us =>
    have := entry h
    simp only [Node.identity.sizeOf_spec]
    omega
  | claim e a b s g us =>
    simp only [Node.claim.sizeOf_spec]
    rcases List.mem_cons.1 h with rfl | h
    · omega
    · have := entry h
      omega
  | verify e s us =>
    simp only [Node.verify.sizeOf_spec]
    rcases List.mem_cons.1 h with rfl | h
    · omega
    · have := entry h
      omega
  | reachable e m vt vs ut uvs us =>
    simp only [Node.reachable.sizeOf_spec]
    rcases List.mem_append.1 h with h | h
    · rcases List.mem_append.1 h with h | h
      · have := List.sizeOf_lt_of_mem h
        omega
      · have := List.sizeOf_lt_of_mem h
        omega
    · have := entry h
      omega

/-- Among entries with unlike keys a key names one entry. -/
theorem eq_of_alike {ps : List (Node × Node)} (hps : ps.Pairwise fun p q => ¬ Alike p.1 q.1)
    {p q : Node × Node} (hp : p ∈ ps) (hq : q ∈ ps) (h : Alike p.1 q.1) : p = q := by
  by_contra hne
  have : Std.Symm fun p q : Node × Node => ¬ Alike p.1 q.1 := ⟨fun p q hpq hqp => hpq hqp.symm⟩
  exact hps.forall hp hq hne h

theorem covered_iff_pairedOff {ps qs : List (Node × Node)}
    (hps : ps.Pairwise fun p q => ¬ Alike p.1 q.1) (hqs : qs.Pairwise fun p q => ¬ Alike p.1 q.1)
    (hsame : ∀ p ∈ ps, ∀ q ∈ qs, (same true p.1 q.1 = true ↔ Alike p.1 q.1) ∧
      (same true p.2 q.2 = true ↔ Alike p.2 q.2)) :
    (ps.length = qs.length ∧ covered ps qs = true) ↔ PairedOff AlikeEntry ps qs := by
  rw [covered_iff]
  constructor
  · rintro ⟨hlen, h⟩
    refine .of_exists (Nat.le_of_eq hlen.symm) (fun p hp => ?_) (hps.imp fun hpq r hpr hqr => ?_)
    · obtain ⟨q, hfind, hv⟩ := h p hp
      have hq := List.mem_of_find?_eq_some hfind
      have hk := List.find?_some hfind
      exact ⟨q, hq, (hsame p hp q hq).1.1 hk, (hsame p hp q hq).2.1 hv⟩
    · exact hpq (hpr.1.trans hqr.1.symm)
  · intro h
    refine ⟨h.length_eq, fun p hp => ?_⟩
    obtain ⟨q, hq, hk, hv⟩ := h.exists_right hp
    have hsome : (qs.find? fun q => same true p.1 q.1).isSome = true :=
      List.find?_isSome.2 ⟨q, hq, (hsame p hp q hq).1.2 hk⟩
    obtain ⟨r, hr⟩ := Option.isSome_iff_exists.1 hsome
    have hrq := List.mem_of_find?_eq_some hr
    have hkr := List.find?_some hr
    have hqr : q = r := eq_of_alike hqs hq hrq (hk.symm.trans ((hsame p hp r hrq).1.1 hkr))
    subst hqr
    exact ⟨q, hr, (hsame p hp q hq).2.2 hv⟩

theorem contained_iff_pairedOff {es fs : List Node} (hes : es.Pairwise fun e f => ¬ Alike e f)
    (hsame : ∀ e ∈ es, ∀ f ∈ fs, (same true e f = true ↔ Alike e f)) :
    (es.length = fs.length ∧ contained es fs = true) ↔ PairedOff Alike es fs := by
  rw [contained_iff]
  constructor
  · rintro ⟨hlen, h⟩
    refine .of_exists (Nat.le_of_eq hlen.symm) (fun e he => ?_) (hes.imp fun hef g heg hfg => ?_)
    · obtain ⟨f, hf, hef⟩ := h e he
      exact ⟨f, hf, (hsame e he f hf).1 hef⟩
    · exact hef (heg.trans hfg.symm)
  · intro h
    refine ⟨h.length_eq, fun e he => ?_⟩
    obtain ⟨f, hf, hef⟩ := h.exists_right he
    exact ⟨f, hf, (hsame e he f hf).2 hef⟩

theorem pairwise_not_alike {ns : List Node} (htidy : ∀ n ∈ ns, n.Tidy)
    (hsame : ∀ n ∈ ns, ∀ m ∈ ns, (same false n m = true ↔ Alike n m))
    (h : areDistinct ns = true) : ns.Pairwise fun n m => ¬ Alike n m := by
  refine (areDistinct_iff.1 h).imp_of_mem fun hn hm hnm hlike => ?_
  rw [eqv_of_isPlain (htidy _ hn).1 (htidy _ hm).1, (hsame _ hn _ hm).2 hlike] at hnm
  exact Bool.noConfusion hnm

theorem pairwise_entries_not_alike {ps : List (Node × Node)} (htidy : ∀ p ∈ ps, p.1.Tidy)
    (hsame : ∀ p ∈ ps, ∀ q ∈ ps, (same false p.1 q.1 = true ↔ Alike p.1 q.1))
    (h : areDistinct (ps.map (·.1)) = true) : ps.Pairwise fun p q => ¬ Alike p.1 q.1 := by
  refine List.pairwise_map.1 (pairwise_not_alike (fun n hn => ?_) (fun n hn m hm => ?_) h)
  · obtain ⟨p, hp, rfl⟩ := List.mem_map.1 hn
    exact htidy p hp
  · obtain ⟨p, hp, rfl⟩ := List.mem_map.1 hn
    obtain ⟨q, hq, rfl⟩ := List.mem_map.1 hm
    exact hsame p hp q hq

/-- Entries of two tidy nodes, if equality between what stands in them is likeness: a look-up on one
side is unique by what equality is between the keys of that side. -/
theorem covered_iff_of_below {ps qs : List (Node × Node)} (hps : ∀ c ∈ entryNodes ps, c.Tidy)
    (hqs : ∀ c ∈ entryNodes qs, c.Tidy)
    (below : ∀ {x y : Node}, x ∈ entryNodes ps ∨ x ∈ entryNodes qs →
      y ∈ entryNodes ps ∨ y ∈ entryNodes qs → (same false x y = true ↔ Alike x y))
    (hpkeys : areDistinct (ps.map (·.1)) = true) (hqkeys : areDistinct (qs.map (·.1)) = true) :
    (ps.length = qs.length ∧ covered ps qs = true) ↔ PairedOff AlikeEntry ps qs := by
  have hunlike := pairwise_entries_not_alike (fun p hp => hps _ (fst_mem_entryNodes hp))
    (fun p hp q hq => below (.inl (fst_mem_entryNodes hp)) (.inl (fst_mem_entryNodes hq))) hpkeys
  have hunlike' := pairwise_entries_not_alike (fun q hq => hqs _ (fst_mem_entryNodes hq))
    (fun p hp q hq => below (.inr (fst_mem_entryNodes hp)) (.inr (fst_mem_entryNodes hq))) hqkeys
  refine covered_iff_pairedOff hunlike hunlike' fun p hp q hq => ?_
  rw [same_true, same_true, alike_comm, alike_comm (a := p.2)]
  exact ⟨below (.inr (fst_mem_entryNodes hq)) (.inl (fst_mem_entryNodes hp)),
    below (.inr (snd_mem_entryNodes hq)) (.inl (snd_mem_entryNodes hp))⟩

/-- Between tidy trees of bounded size. The bound is on both: what equality is between the children
of one side is needed too. -/
theorem same_iff_alike_of_size (d : Nat) : ∀ {a b : Node}, sizeOf a ≤ d → sizeOf b ≤ d →
    a.Tidy → b.Tidy → (same false a b = true ↔ Alike a b) := by
  induction d with
  | zero =>
    intro a b ha
    cases a <;> simp at ha
  | succ d ih =>
    intro a b ha hb hta htb
    have below : ∀ {x y : Node}, (x ∈ a.children ∨ x ∈ b.children) →
        (y ∈ a.children ∨ y ∈ b.children) → (same false x y = true ↔ Alike x y) := by
      intro x y hx hy
      have small : ∀ {z : Node}, z ∈ a.children ∨ z ∈ b.children → sizeOf z ≤ d ∧ z.Tidy := by
        rintro z (hz | hz)
        · have := sizeOf_child hz
          exact ⟨by omega, hta.child hz⟩
        · have := sizeOf_child hz
          exact ⟨by omega, htb.child hz⟩
      exact ih (small hx).1 (small hy).1 (small hx).2 (small hy).2
    have hla := (wellFormed_iff_children.1 hta.2).1
    have hlb := (wellFormed_iff_children.1 htb.2).1
    cases a with
    | leaf e v => cases b <;> simp [same, Alike]
    | dict e t ps =>
      cases b with
      | dict e' u qs =>
        rw [alike_dict, ← covered_iff_of_below (fun c hc => hta.child hc) (fun c hc => htb.child hc)
          below hla hlb]
        simp [same, and_assoc]
      | _ => simp [same, Alike]
    | set e t es =>
      cases b with
      | set e' u fs =>
        have hes : es.Pairwise fun n m => ¬ Alike n m :=
          pairwise_not_alike (fun n hn => hta.child hn)
            (fun n hn m hm => below (.inl hn) (.inl hm)) hla
        rw [alike_set, ← contained_iff_pairedOff hes fun n hn m hm => ?_]
        · simp [same, and_assoc]
        · rw [same_true, alike_comm]
          exact below (.inr hm) (.inl hn)
      | _ => simp [same, Alike]
    | predicate e t as nt ps =>
      cases b with
      | predicate e' u bs nu qs =>
        have named : ∀ {x : Node}, x ∈ entryNodes ps ∨ x ∈ entryNodes qs →
            x ∈ as ++ entryNodes ps ∨ x ∈ bs ++ entryNodes qs :=
          Or.imp (List.mem_append_right _) (List.mem_append_right _)
        have hargs : pointwise false as bs = true ↔ List.Forall₂ Alike as bs := by
          rw [pointwise_iff]
          have hsame : ∀ x ∈ as, ∀ y ∈ bs, (same false x y = true ↔ Alike x y) := fun x hx y hy =>
            below (.inl (List.mem_append_left _ hx)) (.inr (List.mem_append_left _ hy))
          exact forall₂_congr_of_mem hsame
        rw [alike_predicate, ← hargs, ← covered_iff_of_below
          (fun c hc => hta.child (List.mem_append_right _ hc))
          (fun c hc => htb.child (List.mem_append_right _ hc))
          (fun hx hy => below (named hx) (named hy)) hla hlb]
        simp [same, and_assoc]
      | _ => simp [same, Alike]
    | identity e i us => exact absurd hta.1 (by simp [isPlain])
    | claim e a b s g us => exact absurd hta.1 (by simp [isPlain])
    | verify e s us => exact absurd hta.1 (by simp [isPlain])
    | reachable e m vt vs ut uvs us => exact absurd hta.1 (by simp [isPlain])

/-- On tidy trees equality as it is computed is likeness. -/
theorem same_iff_alike {a b : Node} (ha : a.Tidy) (hb : b.Tidy) :
    same false a b = true ↔ Alike a b :=
  same_iff_alike_of_size (max (sizeOf a) (sizeOf b)) (Nat.le_max_left _ _) (Nat.le_max_right _ _)
    ha hb

theorem Tidy.eqv_iff {a b : Node} (ha : a.Tidy) (hb : b.Tidy) : a.eqv b = true ↔ Alike a b := by
  rw [eqv_of_isPlain ha.1 hb.1, same_iff_alike ha hb]

end PeerRecords.Node
