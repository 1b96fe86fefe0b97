import Mathlib.Data.List.Forall2
import Mathlib.Data.List.Perm.Subperm

/-
  Pairing off two lists without regard to order.
  `PairedOff R xs ys` says that some order of `ys` is related to `xs` item by item. Main statement:
  `PairedOff.of_exists`, for lists of one length, each item of the first with a partner and no two
  with the same.
-/

namespace PeerRecords

/-! ## Related item by item -/

/-- Related pairs with what is known of the first of each. -/
theorem forall₂_of_mem {α β : Type} {R S : α → β → Prop} {xs : List α} {ys : List β}
    (h : List.Forall₂ R xs ys) (hRS : ∀ x ∈ xs, ∀ y, R x y → S x y) : List.Forall₂ S xs ys := by
  have hand := (List.forall₂_and_left (p := fun x => ∀ y, R x y → S x y) xs ys).2 ⟨hRS, h⟩
  exact hand.imp fun x y hxy => hxy.1 y hxy.2

theorem forall₂_congr_of_mem {α β : Type} {R S : α → β → Prop} {xs : List α} {ys : List β}
    (h : ∀ x ∈ xs, ∀ y ∈ ys, (R x y ↔ S x y)) : List.Forall₂ R xs ys ↔ List.Forall₂ S xs ys := by
  induction xs generalizing ys with
  | nil => cases ys <;> simp
  | cons x xs ih =>
    cases ys with
    | nil => simp
    | cons y ys =>
      rw [List.forall₂_cons, List.forall₂_cons, h x List.mem_cons_self y List.mem_cons_self,
        ih fun x hx y hy => h x (List.mem_cons_of_mem _ hx) y (List.mem_cons_of_mem _ hy)]

theorem exists_forall₂ {α β : Type} {R : α → β → Prop} {xs : List α} (h : ∀ x ∈ xs, ∃ y, R x y) :
    ∃ ys, List.Forall₂ R xs ys := by
  induction xs with
  | nil => exact ⟨[], .nil⟩
  | cons x xs ih =>
    obtain ⟨y, hy⟩ := h x List.mem_cons_self
    obtain ⟨ys, hys⟩ := ih fun z hz => h z (List.mem_cons_of_mem _ hz)
    exact ⟨y :: ys, .cons hy hys⟩

theorem exists_of_forall₂_left {α β : Type} {R : α → β → Prop} {xs : List α} {ys : List β}
    (h : List.Forall₂ R xs ys) {x : α} (hx : x ∈ xs) : ∃ y ∈ ys, R x y := by
  induction h with
  | nil => exact absurd hx List.not_mem_nil
  | @cons a b as bs hab _ ih =>
    rcases List.mem_cons.1 hx with rfl | hx
    · exact ⟨b, List.mem_cons_self, hab⟩
    · obtain ⟨y, hy, hxy⟩ := ih hx
      exact ⟨y, List.mem_cons_of_mem _ hy, hxy⟩

theorem exists_of_forall₂_right {α β : Type} {R : α → β → Prop} {xs : List α} {ys : List β}
    (h : List.Forall₂ R xs ys) {y : β} (hy : y ∈ ys) : ∃ x ∈ xs, R x y :=
  exists_of_forall₂_left (List.Forall₂.flip (R := fun y x => R x y) h) hy

theorem forall_of_forall₂ {α β : Type} {R : α → β → Prop} {P : β → Prop} {xs : List α} {ys : List β}
    (h : List.Forall₂ R xs ys) (hP : ∀ x ∈ xs, ∀ y, R x y → P y) : ∀ y ∈ ys, P y := by
  intro y hy
  obtain ⟨x, hx, hxy⟩ := exists_of_forall₂_right h hy
  exact hP x hx y hxy

/-- What holds between the items of one list holds between their partners. -/
theorem pairwise_of_forall₂ {α β : Type} {R : α → β → Prop} {S : α → α → Prop} {T : β → β → Prop}
    {xs : List α} {ys : List β} (h : List.Forall₂ R xs ys) (hxs : xs.Pairwise S)
    (hST : ∀ {x x' y y'}, R x y → R x' y' → S x x' → T y y') : ys.Pairwise T := by
  induction h with
  | nil => exact List.Pairwise.nil
  | cons hab hrest ih =>
    have hp := List.pairwise_cons.1 hxs
    refine List.pairwise_cons.2 ⟨fun y hy => ?_, ih hp.2⟩
    obtain ⟨x, hx, hxy⟩ := exists_of_forall₂_right hrest hy
    exact hST hab hxy (hp.1 x hx)

theorem forall₂_trans {α : Type} {R : α → α → Prop} {xs ys zs : List α}
    (hxy : List.Forall₂ R xs ys) (hyz : List.Forall₂ R ys zs)
    (hR : ∀ x ∈ xs, ∀ y z, R x y → R y z → R x z) : List.Forall₂ R xs zs := by
  induction hxy generalizing zs with
  | nil => cases hyz; exact .nil
  | cons ha _ ih =>
    cases hyz with
    | cons hb hbs =>
      exact .cons (hR _ List.mem_cons_self _ _ ha hb)
        (ih hbs fun x hx => hR x (List.mem_cons_of_mem _ hx))

/-- A function that does not tell related items apart. -/
theorem map_eq_of_forall₂ {α β : Type} {R : α → α → Prop} {f : α → β} {xs ys : List α}
    (h : List.Forall₂ R xs ys) (hf : ∀ x ∈ xs, ∀ y, R x y → f x = f y) : xs.map f = ys.map f := by
  induction h with
  | nil => rfl
  | cons hab _ ih =>
    rw [List.map_cons, List.map_cons, hf _ List.mem_cons_self _ hab,
      ih fun x hx => hf x (List.mem_cons_of_mem _ hx)]

/-! ## Related in some order -/

/-- The items of one list are those of the other in some order, pair by pair related. -/
def PairedOff {α : Type} (R : α → α → Prop) (xs ys : List α) : Prop :=
  ∃ zs, List.Forall₂ R xs zs ∧ zs.Perm ys

namespace PairedOff

variable {α : Type} {R S : α → α → Prop} {xs ys zs : List α}

theorem refl (h : ∀ x ∈ xs, R x x) : PairedOff R xs xs := ⟨xs, List.forall₂_same.2 h, .refl _⟩

theorem of_mem (h : PairedOff R xs ys) (hRS : ∀ x ∈ xs, ∀ y, R x y → S x y) :
    PairedOff S xs ys := by
  obtain ⟨zs, hxz, hzy⟩ := h
  exact ⟨zs, forall₂_of_mem hxz hRS, hzy⟩

theorem symm (h : PairedOff R xs ys) (hRS : ∀ x ∈ xs, ∀ y, R x y → S y x) :
    PairedOff S ys xs := by
  obtain ⟨zs, hxz, hzy⟩ := h
  have hzx : List.Forall₂ S zs xs :=
    List.Forall₂.flip (R := S) (forall₂_of_mem (S := fun x y => S y x) hxz hRS)
  exact List.perm_comp_forall₂ hzy.symm hzx

theorem trans (hxy : PairedOff R xs ys) (hyz : PairedOff R ys zs)
    (hR : ∀ x ∈ xs, ∀ y z, R x y → R y z → R x z) : PairedOff R xs zs := by
  obtain ⟨us, hxu, huy⟩ := hxy
  obtain ⟨vs, hyv, hvz⟩ := hyz
  obtain ⟨ws, huw, hwv⟩ := List.perm_comp_forall₂ huy hyv
  exact ⟨ws, forall₂_trans hxu huw hR, hwv.trans hvz⟩

theorem length_eq (h : PairedOff R xs ys) : xs.length = ys.length := by
  obtain ⟨zs, hxz, hzy⟩ := h
  rw [hxz.length_eq, hzy.length_eq]

theorem of_perm {xs' ys' : List α} (h : List.Forall₂ R xs' ys') (hxs : xs'.Perm xs)
    (hys : ys'.Perm ys) : PairedOff R xs ys := by
  obtain ⟨zs, hxz, hzy⟩ := List.perm_comp_forall₂ hxs.symm h
  exact ⟨zs, hxz, hzy.trans hys⟩

theorem perm_map {β : Type} {f : α → β} (h : PairedOff R xs ys)
    (hf : ∀ x ∈ xs, ∀ y, R x y → f x = f y) : (xs.map f).Perm (ys.map f) := by
  obtain ⟨zs, hxz, hzy⟩ := h
  rw [map_eq_of_forall₂ hxz hf]
  exact hzy.map f

theorem exists_right (h : PairedOff R xs ys) {x : α} (hx : x ∈ xs) : ∃ y ∈ ys, R x y := by
  obtain ⟨zs, hxz, hzy⟩ := h
  obtain ⟨y, hy, hxy⟩ := exists_of_forall₂_left hxz hx
  exact ⟨y, hzy.mem_iff.1 hy, hxy⟩

theorem exists_left (h : PairedOff R xs ys) {y : α} (hy : y ∈ ys) : ∃ x ∈ xs, R x y := by
  obtain ⟨zs, hxz, hzy⟩ := h
  exact exists_of_forall₂_right hxz (hzy.mem_iff.2 hy)

/-- Each item with a partner, and no two with one partner: the partners are part of the list. -/
theorem exists_subperm (h : ∀ x ∈ xs, ∃ y ∈ ys, R x y)
    (hxs : xs.Pairwise fun x x' => ∀ y, R x y → ¬ R x' y) :
    ∃ zs, List.Forall₂ R xs zs ∧ zs.Subperm ys := by
  obtain ⟨zs, hzs⟩ := exists_forall₂ (R := fun x y => y ∈ ys ∧ R x y)
    fun x hx => (h x hx).imp fun y hy => hy
  have hR : List.Forall₂ R xs zs := hzs.imp fun x y hxy => hxy.2
  have hsub : zs ⊆ ys := by
    intro z hz
    obtain ⟨x, _, hxz⟩ := exists_of_forall₂_right hzs hz
    exact hxz.1
  have hnodup : zs.Nodup := by
    clear hzs hsub h
    induction hR with
    | nil => exact List.nodup_nil
    | cons hab hrest ih =>
      have hp := List.pairwise_cons.1 hxs
      refine List.nodup_cons.2 ⟨fun hb => ?_, ih hp.2⟩
      obtain ⟨x, hx, hxb⟩ := exists_of_forall₂_right hrest hb
      exact hp.1 x hx _ hab hxb
  exact ⟨zs, hR, hnodup.subperm hsub⟩

/-- As many items, each with a partner, and no two with one partner: all are paired off. -/
theorem of_exists (hlen : ys.length ≤ xs.length) (h : ∀ x ∈ xs, ∃ y ∈ ys, R x y)
    (hxs : xs.Pairwise fun x x' => ∀ y, R x y → ¬ R x' y) : PairedOff R xs ys := by
  obtain ⟨zs, hR, hsub⟩ := exists_subperm h hxs
  refine ⟨zs, hR, hsub.perm_of_length_le ?_⟩
  rw [← hR.length_eq]
  exact hlen

/-- Each item of both lists with a partner in the other, and no two with one partner. -/
theorem of_exists_exists (h : ∀ x ∈ xs, ∃ y ∈ ys, R x y)
    (hxs : xs.Pairwise fun x x' => ∀ y, R x y → ¬ R x' y) (h' : ∀ y ∈ ys, ∃ x ∈ xs, S y x)
    (hys : ys.Pairwise fun y y' => ∀ x, S y x → ¬ S y' x) : PairedOff R xs ys := by
  obtain ⟨zs, hR, hsub⟩ := exists_subperm h' hys
  exact of_exists (hR.length_eq ▸ hsub.length_le) h hxs

end PairedOff

end PeerRecords
