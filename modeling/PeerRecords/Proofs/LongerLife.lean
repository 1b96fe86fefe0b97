import PeerRecords.Proofs.Lifetimes
import PeerRecords.Proofs.Retry
import PeerRecords.Proofs.Merge.Basic

/-
  Writes that ask for a longer life.
  A place of a document is given by indices, through the values of dicts and the elements of sets
  (`standing?`). Two runs of one write that differ in the expiration they give leave documents that
  are the same but for expirations, and at each place both leave the expiration that was there
  before or both leave it combined with their own (`Drawn`). `Renewed` says so of whole documents
  and of what stood in their place; `renewed_update` is the step through one update. So the longer
  life is the longer one at every place (`longer_life_outlives`), but where it runs past the
  calendar, is then no expiration at all, and leaves an earlier one as it is.
-/

namespace PeerRecords

open Node

/-! ## Expirations -/

namespace Expiry

/-- One expiration is no later than another; no expiration is later than every instant. -/
def NoLater : Expiry → Expiry → Prop
  | _, none => True
  | none, some _ => False
  | some a, some b => a ≤ b

theorem NoLater.refl (e : Expiry) : e.NoLater e := by
  cases e with
  | none => trivial
  | some a => exact le_refl a

end Expiry

/-- Two writes that give the expirations `t₁` and `t₂` leave `e₁` and `e₂` where `e₀` has been: both
leave it as it is, or both combine it with their own. -/
def Drawn (t₁ t₂ e₀ e₁ e₂ : Expiry) : Prop :=
  e₁ = e₀ ∧ e₂ = e₀ ∨ e₁ = Expiry.combine e₀ t₁ ∧ e₂ = Expiry.combine e₀ t₂

theorem Drawn.combine {t₁ t₂ e₀ e₁ e₂ : Expiry} (h : Drawn t₁ t₂ e₀ e₁ e₂) :
    Drawn t₁ t₂ e₀ (Expiry.combine e₁ t₁) (Expiry.combine e₂ t₂) := by
  obtain ⟨rfl, rfl⟩ | ⟨rfl, rfl⟩ := h
  · exact .inr ⟨rfl, rfl⟩
  · refine .inr ⟨?_, ?_⟩ <;> rw [Expiry.combine_assoc, Expiry.combine_self]

/-- Of two lives the longer one ends no earlier, unless it runs past the calendar. -/
theorem Drawn.noLater_or {now : Instant} {d₁ d₂ : Duration} (hd : d₁ ≤ d₂) {e₀ e₁ e₂ : Expiry}
    (h : Drawn ((Lifetime.lasting d₁).resolve now) ((Lifetime.lasting d₂).resolve now) e₀ e₁ e₂) :
    e₁.NoLater e₂ ∨ (Lifetime.lasting d₂).resolve now = none ∧
      ∃ a c, (Lifetime.lasting d₁).resolve now = some a ∧ c < a ∧ e₀ = some c ∧
        e₁ = some a ∧ e₂ = some c := by
  obtain ⟨rfl, rfl⟩ | ⟨rfl, rfl⟩ := h
  · exact .inl (.refl _)
  have hresolve : ∀ d, (Lifetime.lasting d).resolve now =
      if d ≤ Duration.longest ∧ now + d ≤ Instant.last then some (now + d) else none := fun _ => rfl
  have hsum : now + (d₁ : Int) ≤ now + d₂ := Int.add_le_add_left (Int.ofNat_le.2 hd) now
  rw [hresolve, hresolve]
  by_cases h₂ : d₂ ≤ Duration.longest ∧ now + d₂ ≤ Instant.last
  · rw [if_pos ⟨hd.trans h₂.1, hsum.trans h₂.2⟩, if_pos h₂]
    cases e₀ with
    | none => exact .inl hsum
    | some c => exact .inl (max_le (le_max_left _ _) (hsum.trans (le_max_right _ _)))
  · rw [if_neg h₂]
    by_cases h₁ : d₁ ≤ Duration.longest ∧ now + d₁ ≤ Instant.last
    · rw [if_pos h₁]
      cases e₀ with
      | none => exact .inl trivial
      | some c =>
        obtain hc | hc := le_or_gt (now + (d₁ : Int)) c
        · exact .inl (max_le le_rfl hc)
        · exact .inr ⟨rfl, _, c, rfl, hc, rfl, congrArg some (max_eq_right hc.le), rfl⟩
    · rw [if_neg h₁]
      exact .inl (.refl _)

namespace Node

/-! ## Places -/

/-- What stands where the indices lead, through the values of dicts and the elements of sets. -/
def standing? : List Nat → Node → Option Node
  | [], n => some n
  | i :: way, n => n.parts[i]?.bind (standing? way)

theorem parts_timeless (n : Node) : n.timeless.parts = n.parts.map timeless := by
  cases n with
  | dict e t ps => simp [timeless, parts, timelessEntries_eq_map, Function.comp_def]
  | set e t es => simp [timeless, parts, timelessAll_eq_map]
  | _ => rfl

/-! ## Two runs of one write -/

mutual

/-- What two runs of one write leave where `o` has been: the same but for expirations, which are
drawn from what was there and what the runs give, place by place. -/
inductive Renewed (t₁ t₂ : Expiry) : Option Node → Node → Node → Prop where
  | of_parts {o : Option Node} {x₁ x₂ : Node} (hsame : x₁.timeless = x₂.timeless)
      (hdrawn : Drawn t₁ t₂ (o.bind expiry) x₁.expiry x₂.expiry)
      (hparts : RenewedParts t₁ t₂ (o.elim [] parts) x₁.parts x₂.parts) : Renewed t₁ t₂ o x₁ x₂

/-- The same of lists of parts; what was there before comes first. -/
inductive RenewedParts (t₁ t₂ : Expiry) : List Node → List Node → List Node → Prop where
  | nil : RenewedParts t₁ t₂ [] [] []
  | old {o x₁ x₂ : Node} {os xs₁ xs₂ : List Node} (h : Renewed t₁ t₂ (some o) x₁ x₂)
      (hs : RenewedParts t₁ t₂ os xs₁ xs₂) : RenewedParts t₁ t₂ (o :: os) (x₁ :: xs₁) (x₂ :: xs₂)
  | new {x₁ x₂ : Node} {xs₁ xs₂ : List Node} (h : Renewed t₁ t₂ none x₁ x₂)
      (hs : RenewedParts t₁ t₂ [] xs₁ xs₂) : RenewedParts t₁ t₂ [] (x₁ :: xs₁) (x₂ :: xs₂)

end

variable {t₁ t₂ : Expiry} {o : Option Node} {x₁ x₂ n₁ n₂ : Node} {os xs₁ xs₂ : List Node}

theorem Renewed.timeless_eq (h : Renewed t₁ t₂ o x₁ x₂) : x₁.timeless = x₂.timeless := by
  cases h with
  | of_parts hsame _ _ => exact hsame

theorem RenewedParts.exists_get (h : RenewedParts t₁ t₂ os xs₁ xs₂) {i : Nat} {x : Node}
    (hx : xs₁[i]? = some x) : ∃ y, xs₂[i]? = some y ∧ Renewed t₁ t₂ os[i]? x y := by
  induction xs₁ generalizing os xs₂ i with
  | nil => cases hx
  | cons x₁ xs₁ ih =>
    cases h with
    | old h hs =>
      cases i with
      | zero =>
        cases hx
        exact ⟨_, rfl, h⟩
      | succ i => exact ih hs hx
    | new h hs =>
      cases i with
      | zero =>
        cases hx
        exact ⟨_, rfl, h⟩
      | succ i => exact ih hs hx

/-- What holds of whole documents holds of what stands at each place. -/
theorem Renewed.exists_standing (h : Renewed t₁ t₂ o x₁ x₂) {way : List Nat} {v₁ : Node}
    (hv : x₁.standing? way = some v₁) :
    ∃ v₂, x₂.standing? way = some v₂ ∧ Renewed t₁ t₂ (o.bind (standing? way)) v₁ v₂ := by
  induction way generalizing o x₁ x₂ with
  | nil =>
    cases hv
    exact ⟨x₂, rfl, by cases o <;> exact h⟩
  | cons i way ih =>
    obtain ⟨c₁, hc₁, hv⟩ := Option.bind_eq_some_iff.1 hv
    cases h with
    | of_parts hsame hdrawn hparts =>
      obtain ⟨c₂, hc₂, hc⟩ := hparts.exists_get hc₁
      obtain ⟨v₂, hv₂, hv⟩ := ih hc hv
      refine ⟨v₂, by rw [standing?, hc₂]; exact hv₂, ?_⟩
      cases o <;> exact hv

/-! ## What a write starts from -/

/-- What is left as it was. -/
theorem renewed_self (t₁ t₂ : Expiry) (x : Node) : Renewed t₁ t₂ (some x) x x := by
  have hlist : ∀ {ns : List Node}, (∀ n ∈ ns, Renewed t₁ t₂ (some n) n n) →
      RenewedParts t₁ t₂ ns ns ns := by
    intro ns h
    induction ns with
    | nil => exact .nil
    | cons n ns ih =>
      obtain ⟨hn, hns⟩ := List.forall_mem_cons.1 h
      exact .old hn (ih hns)
  induction x using induct_children with
  | step x ih =>
    exact .of_parts rfl (.inl ⟨rfl, rfl⟩) (hlist fun c hc => ih c (parts_subset_children hc))

/-- What is written where nothing has been. -/
theorem renewed_of_stamped (h₁ : x₁.Stamped t₁) (h₂ : x₂.Stamped t₂)
    (hsame : x₁.timeless = x₂.timeless) : Renewed t₁ t₂ none x₁ x₂ := by
  have hlist : ∀ {ns ms : List Node}, ns.map timeless = ms.map timeless →
      (∀ n ∈ ns, ∀ m ∈ ms, n.timeless = m.timeless → Renewed t₁ t₂ none n m) →
      RenewedParts t₁ t₂ [] ns ms := by
    intro ns ms hmap h
    induction ns generalizing ms with
    | nil =>
      rw [List.map_nil, eq_comm, List.map_eq_nil_iff] at hmap
      rw [hmap]
      exact .nil
    | cons n ns ih =>
      cases ms with
      | nil => cases hmap
      | cons m ms =>
        obtain ⟨hnm, hmap⟩ := List.cons.inj hmap
        exact .new (h n List.mem_cons_self m List.mem_cons_self hnm) (ih hmap fun x hx y hy =>
          h x (List.mem_cons_of_mem n hx) y (List.mem_cons_of_mem m hy))
  induction x₁ using induct_children generalizing x₂ with
  | step x₁ ih =>
    have hdrawn : Drawn t₁ t₂ none x₁.expiry x₂.expiry :=
      .inr ⟨by simp [(stamped_iff.1 h₁).1], by simp [(stamped_iff.1 h₂).1]⟩
    refine .of_parts hsame hdrawn (hlist ?_ fun c hc d hd hcd => ?_)
    · rw [← parts_timeless, hsame, parts_timeless]
    · exact ih c (parts_subset_children hc) ((stamped_iff.1 h₁).2 c hc)
        ((stamped_iff.1 h₂).2 d hd) hcd

/-! ## The step -/

theorem eqv_eq_of_timeless_eq {a b c d : Node} (hab : a.timeless = b.timeless)
    (hcd : c.timeless = d.timeless) : a.eqv c = b.eqv d := by
  rw [← eqv_timeless_left, ← eqv_timeless_right, hab, hcd, eqv_timeless_left, eqv_timeless_right]

theorem Renewed.refreshedBy (h : Renewed t₁ t₂ o x₁ x₂) (hn₁ : n₁.expiry = t₁)
    (hn₂ : n₂.expiry = t₂) : Renewed t₁ t₂ o (x₁.refreshedBy n₁) (x₂.refreshedBy n₂) := by
  cases h with
  | of_parts hsame hdrawn hparts =>
    refine .of_parts (by simpa [Node.refreshedBy] using hsame) ?_ ?_
    · rw [Node.refreshedBy, Node.refreshedBy, expiry_withExpiry, expiry_withExpiry, hn₁, hn₂]
      exact hdrawn.combine
    · rw [Node.refreshedBy, Node.refreshedBy, parts_withExpiry, parts_withExpiry]
      exact hparts

section

variable (hn : Renewed t₁ t₂ none n₁ n₂) (hn₁ : n₁.expiry = t₁) (hn₂ : n₂.expiry = t₂)
include hn hn₁ hn₂

/-- Both runs refresh the same element, or both add it. -/
theorem renewedParts_refresh (h : RenewedParts t₁ t₂ os xs₁ xs₂) :
    RenewedParts t₁ t₂ os (NodeSet.refresh n₁ xs₁) (NodeSet.refresh n₂ xs₂) := by
  induction xs₁ generalizing os xs₂ with
  | nil =>
    cases h
    exact .new hn .nil
  | cons x₁ xs₁ ih =>
    have hkey : ∀ {o x₂}, Renewed t₁ t₂ o x₁ x₂ → x₁.eqv n₁ = x₂.eqv n₂ := fun hx =>
      eqv_eq_of_timeless_eq hx.timeless_eq hn.timeless_eq
    cases h with
    | old hx hs =>
      rw [NodeSet.refresh_cons, NodeSet.refresh_cons, ← hkey hx]
      split
      · exact .old (hx.refreshedBy hn₁ hn₂) hs
      · exact .old hx (ih hs)
    | new hx hs =>
      rw [NodeSet.refresh_cons, NodeSet.refresh_cons, ← hkey hx]
      split
      · exact .new (hx.refreshedBy hn₁ hn₂) hs
      · exact .new hx (ih hs)

end

theorem renewedParts_refreshAll {ns₁ ns₂ : List Node} (h₁ : ∀ n ∈ ns₁, n.Stamped t₁)
    (h₂ : ∀ n ∈ ns₂, n.Stamped t₂) (hsame : ns₁.map timeless = ns₂.map timeless)
    (h : RenewedParts t₁ t₂ os xs₁ xs₂) :
    RenewedParts t₁ t₂ os (NodeSet.refreshAll xs₁ ns₁) (NodeSet.refreshAll xs₂ ns₂) := by
  induction ns₁ generalizing ns₂ xs₁ xs₂ with
  | nil =>
    rw [List.map_nil, eq_comm, List.map_eq_nil_iff] at hsame
    rw [hsame]
    exact h
  | cons n₁ ns₁ ih =>
    cases ns₂ with
    | nil => cases hsame
    | cons n₂ ns₂ =>
      obtain ⟨hn, hsame⟩ := List.cons.inj hsame
      obtain ⟨hn₁, h₁⟩ := List.forall_mem_cons.1 h₁
      obtain ⟨hn₂, h₂⟩ := List.forall_mem_cons.1 h₂
      rw [NodeSet.refreshAll_cons, NodeSet.refreshAll_cons]
      exact ih h₁ h₂ hsame (renewedParts_refresh (renewed_of_stamped hn₁ hn₂ hn)
        (stamped_iff.1 hn₁).1 (stamped_iff.1 hn₂).1 h)

/-- An update by the one and by the other node keeps what the runs left so far `Renewed`. -/
def StepsRenewed (t₁ t₂ : Expiry) (v₁ v₂ : Node) : Prop :=
  ∀ {o : Option Node} {x₁ x₂ w₁ w₂ : Node}, Renewed t₁ t₂ o x₁ x₂ → x₁.update v₁ = .ok w₁ →
    x₂.update v₂ = .ok w₂ → Renewed t₁ t₂ o w₁ w₂

/-- Both runs fold an entry in at the same place. -/
theorem renewedParts_foldIn {k₁ k₂ v₁ v₂ : Node} (hk : k₁.timeless = k₂.timeless)
    (hv : Renewed t₁ t₂ none v₁ v₂) (hstep : StepsRenewed t₁ t₂ v₁ v₂)
    {ps₁ ps₂ us₁ us₂ : List (Node × Node)}
    (hkeys : ps₁.map (·.1.timeless) = ps₂.map (·.1.timeless))
    (h : RenewedParts t₁ t₂ os (ps₁.map (·.2)) (ps₂.map (·.2)))
    (h₁ : Entries.foldIn k₁ v₁ (fun old => old.update v₁) ps₁ = .ok us₁)
    (h₂ : Entries.foldIn k₂ v₂ (fun old => old.update v₂) ps₂ = .ok us₂) :
    us₁.map (·.1.timeless) = us₂.map (·.1.timeless) ∧
      RenewedParts t₁ t₂ os (us₁.map (·.2)) (us₂.map (·.2)) := by
  induction ps₁ generalizing ps₂ us₁ us₂ os with
  | nil =>
    rw [List.map_nil, eq_comm, List.map_eq_nil_iff] at hkeys
    subst hkeys
    cases h
    cases h₁
    cases h₂
    exact ⟨by simp [hk], .new hv .nil⟩
  | cons p₁ ps₁ ih =>
    cases ps₂ with
    | nil => cases hkeys
    | cons p₂ ps₂ =>
      obtain ⟨hp, hkeys⟩ := List.cons.inj hkeys
      rw [Entries.foldIn_cons] at h₁ h₂
      rw [← eqv_eq_of_timeless_eq hp hk] at h₂
      cases hkey : p₁.1.eqv k₁ with
      | true =>
        rw [if_pos hkey] at h₁ h₂
        obtain ⟨w₁, hw₁, h₁⟩ := bind_eq_ok.1 h₁
        obtain ⟨w₂, hw₂, h₂⟩ := bind_eq_ok.1 h₂
        cases h₁
        cases h₂
        refine ⟨by simp [refreshedBy, hp, hkeys], ?_⟩
        cases h with
        | old hx hs => exact .old (hstep hx hw₁ hw₂) hs
        | new hx hs => exact .new (hstep hx hw₁ hw₂) hs
      | false =>
        rw [if_neg (by simp [hkey])] at h₁ h₂
        obtain ⟨rs₁, hrs₁, h₁⟩ := bind_eq_ok.1 h₁
        obtain ⟨rs₂, hrs₂, h₂⟩ := bind_eq_ok.1 h₂
        cases h₁
        cases h₂
        cases h with
        | old hx hs =>
          obtain ⟨hrest, hparts⟩ := ih hkeys hs hrs₁ hrs₂
          exact ⟨by simp [hp, hrest], .old hx hparts⟩
        | new hx hs =>
          obtain ⟨hrest, hparts⟩ := ih hkeys hs hrs₁ hrs₂
          exact ⟨by simp [hp, hrest], .new hx hparts⟩

theorem renewedParts_updateEntries {qs₁ qs₂ : List (Node × Node)}
    (hqs : timelessEntries qs₁ = timelessEntries qs₂) (hs₁ : ∀ q ∈ qs₁, q.2.Stamped t₁)
    (hs₂ : ∀ q ∈ qs₂, q.2.Stamped t₂)
    (hstep : ∀ q₁ ∈ qs₁, ∀ q₂ ∈ qs₂, q₁.2.timeless = q₂.2.timeless →
      StepsRenewed t₁ t₂ q₁.2 q₂.2)
    {ps₁ ps₂ rs₁ rs₂ : List (Node × Node)}
    (hkeys : ps₁.map (·.1.timeless) = ps₂.map (·.1.timeless))
    (h : RenewedParts t₁ t₂ os (ps₁.map (·.2)) (ps₂.map (·.2)))
    (h₁ : updateEntries ps₁ qs₁ = .ok rs₁) (h₂ : updateEntries ps₂ qs₂ = .ok rs₂) :
    RenewedParts t₁ t₂ os (rs₁.map (·.2)) (rs₂.map (·.2)) := by
  induction qs₁ generalizing qs₂ ps₁ ps₂ with
  | nil =>
    cases qs₂ with
    | nil =>
      cases h₁
      cases h₂
      exact h
    | cons q₂ qs₂ => cases hqs
  | cons q₁ qs₁ ih =>
    cases qs₂ with
    | nil => cases hqs
    | cons q₂ qs₂ =>
      obtain ⟨hq, hqs⟩ := List.cons.inj hqs
      obtain ⟨hk, hv⟩ := Prod.mk.inj hq
      obtain ⟨hq₁, hs₁⟩ := List.forall_mem_cons.1 hs₁
      obtain ⟨hq₂, hs₂⟩ := List.forall_mem_cons.1 hs₂
      rw [updateEntries_cons] at h₁ h₂
      obtain ⟨us₁, hus₁, h₁⟩ := bind_eq_ok.1 h₁
      obtain ⟨us₂, hus₂, h₂⟩ := bind_eq_ok.1 h₂
      obtain ⟨hukeys, hus⟩ := renewedParts_foldIn hk (renewed_of_stamped hq₁ hq₂ hv)
        (hstep q₁ List.mem_cons_self q₂ List.mem_cons_self hv) hkeys h hus₁ hus₂
      exact ih hqs hs₁ hs₂ (fun a ha b hb => hstep a (List.mem_cons_of_mem q₁ ha) b
        (List.mem_cons_of_mem q₂ hb)) hukeys hus h₁ h₂

theorem Updated.expiry_eq {a b r : Node} (h : Updated a b r) :
    r.expiry = Expiry.combine a.expiry b.expiry := by
  cases h <;> rfl

/-- One update by each of two documents that are the same but for the expiration they give. -/
theorem renewed_update {b₁ b₂ : Node} (hb₁ : b₁.Stamped t₁) (hb₂ : b₂.Stamped t₂)
    (hb : b₁.timeless = b₂.timeless) : StepsRenewed t₁ t₂ b₁ b₂ := by
  induction b₁ using induct_children generalizing b₂ with
  | step b₁ ih =>
    intro o x₁ x₂ r₁ r₂ hx h₁ h₂
    obtain ⟨hb₁e, hb₁p⟩ := stamped_iff.1 hb₁
    obtain ⟨hb₂e, hb₂p⟩ := stamped_iff.1 hb₂
    cases hx with
    | of_parts hsame hdrawn hparts =>
    have hr : r₁.timeless = r₂.timeless := by
      have htimeless := map_timeless_update x₁ b₁
      rw [hsame, hb, ← map_timeless_update, h₁, h₂] at htimeless
      exact Except.ok.inj htimeless
    have hu₁ := updated_of_update h₁
    have hu₂ := updated_of_update h₂
    refine .of_parts hr ?_ ?_
    · rw [hu₁.expiry_eq, hu₂.expiry_eq, hb₁e, hb₂e]
      exact hdrawn.combine
    have hflat : x₁.parts = [] → r₁.parts = [] →
        RenewedParts t₁ t₂ (o.elim [] parts) r₁.parts r₂.parts := by
      intro hx₁ hr₁
      have hr₂ := congrArg parts hr
      rw [parts_timeless, parts_timeless, hr₁, List.map_nil, eq_comm, List.map_eq_nil_iff] at hr₂
      rw [hx₁] at hparts
      rw [hr₁, hr₂]
      generalize o.elim [] parts = os, x₂.parts = xs₂ at hparts
      cases hparts
      exact .nil
    cases hu₁ with
    | dict e₁ e₁' t t' hrs₁ =>
      cases x₂ with
      | dict e₂ u ps₂ =>
        cases b₂ with
        | dict e₂' u' qs₂ =>
          cases hu₂ with
          | dict _ _ _ _ hrs₂ =>
            obtain ⟨-, -, hps⟩ := Node.dict.inj hsame
            obtain ⟨-, -, hqs⟩ := Node.dict.inj hb
            have hkeys := congrArg (List.map (·.1)) hps
            simp only [timelessEntries_eq_map, List.map_map, Function.comp_def, Prod.map_fst]
              at hkeys
            exact renewedParts_updateEntries hqs (List.forall_mem_map.1 hb₁p)
              (List.forall_mem_map.1 hb₂p) (fun q₁ hq₁ q₂ hq₂ hq => ih q₁.2
                (snd_mem_entryNodes hq₁) (hb₁p _ (List.mem_map_of_mem hq₁))
                (hb₂p _ (List.mem_map_of_mem hq₂)) hq) hkeys hparts hrs₁ hrs₂
        | _ => cases hb
      | _ => cases hsame
    | set e₁ e₁' t es fs =>
      cases x₂ with
      | set e₂ u es₂ =>
        cases b₂ with
        | set e₂' u' fs₂ =>
          cases hu₂ with
          | set _ _ _ _ _ =>
            obtain ⟨-, -, hfs⟩ := Node.set.inj hb
            rw [timelessAll_eq_map, timelessAll_eq_map] at hfs
            exact renewedParts_refreshAll hb₁p hb₂p hfs hparts
        | _ => cases hb
      | _ => cases hsame
    | _ => exact hflat rfl rfl

end Node

/-! ## Two writes that differ in the life they ask for -/

namespace Store

/-- A write that asks its nodes to live for `d`, and no answer of the network past the deadline. -/
def askingFor (d : Duration) (deadline : Option Instant) : WriteOptions where
  lifetime := .lasting d
  deadline := deadline

/-- Where one of two documents that are the same but for the expiration they give can be folded in,
so can the other. -/
theorem exists_folded {t₁ t₂ : Expiry} {old : Option Node} {m₁ m₂ r₁ : Node}
    (h₁ : m₁.Stamped t₁) (h₂ : m₂.Stamped t₂) (hm : m₁.timeless = m₂.timeless)
    (h : folded old m₁ = .ok r₁) : ∃ r₂, folded old m₂ = .ok r₂ ∧ Renewed t₁ t₂ old r₁ r₂ := by
  cases old with
  | none =>
    cases h
    exact ⟨m₂, rfl, renewed_of_stamped h₁ h₂ hm⟩
  | some old =>
    have hupdate : old.update m₁ = .ok r₁ := h
    have htimeless := map_timeless_update old m₂
    rw [← hm, ← map_timeless_update, hupdate] at htimeless
    obtain ⟨r₂, hr₂, _⟩ := map_eq_ok.1 htimeless
    exact ⟨r₂, hr₂, renewed_update h₁ h₂ hm (renewed_self t₁ t₂ old) hupdate hr₂⟩

/-- If a write succeeds, so does the same write with a longer life, with the same calls to the
probe. The two leave documents that are the same but for expirations, and at each place the second
leaves one that is no earlier. The exception is a longer life that runs past the calendar and is
therefore none: what has been there with an expiration earlier than that of the shorter life keeps
it. -/
theorem longer_life_outlives {s s₁ : Store} (hg : s.grammar.IsStock) {now : Instant}
    {writer : PeerId} {key : String} {doc : Node} {d₁ d₂ : Duration} {deadline : Option Instant}
    (hd : d₁ ≤ d₂) (h : (s.update now writer key doc (askingFor d₁ deadline)).1 = .ok s₁) :
    ∃ s₂ r₁ r₂, s.update now writer key doc (askingFor d₂ deadline) =
        (.ok s₂, (s.update now writer key doc (askingFor d₁ deadline)).2) ∧
      s₁.slot? key writer = some r₁ ∧ s₂.slot? key writer = some r₂ ∧
      r₁.timeless = r₂.timeless ∧
      ∀ way v₁, r₁.standing? way = some v₁ → ∃ v₂, r₂.standing? way = some v₂ ∧
        (v₁.expiry.NoLater v₂.expiry ∨
          (Lifetime.lasting d₂).resolve now = none ∧
          ∃ old v a c, s.slot? key writer = some old ∧ old.standing? way = some v ∧
            v.expiry = some c ∧ c < a ∧ (Lifetime.lasting d₁).resolve now = some a ∧
            v₁.expiry = some a ∧ v₂.expiry = some c) := by
  obtain ⟨m₁, r₁, hm₁, ⟨e, t, ps, rfl⟩, hr₁, rfl⟩ := update_eq_ok h
  have hasks : (s.writeContext now writer (askingFor d₁ deadline)).AsksLike
      (s.writeContext now writer (askingFor d₂ deadline)) := ⟨rfl, rfl, rfl⟩
  obtain ⟨m₂, hm₂, hm⟩ := hg.leads_assemble_again hasks doc [] _ _ (Prod.ext hm₁ rfl)
  have hstamped₁ : (Node.dict e t ps).Stamped ((Lifetime.lasting d₁).resolve now) :=
    stamped_of_yields (hg.upholds _) (.of_outcome hm₁)
  have hstamped₂ : m₂.Stamped ((Lifetime.lasting d₂).resolve now) :=
    stamped_of_yields (hg.upholds _) ⟨[], _, hm₂⟩
  obtain ⟨r₂, hr₂, hr⟩ := exists_folded hstamped₁ hstamped₂ hm hr₁
  have hwritten : written s.grammar (s.writeContext now writer (askingFor d₂ deadline))
      (s.slot? key writer) doc =
        (.ok r₂, (s.update now writer key doc (askingFor d₁ deadline)).2) := by
    have haccepted : accepted (s.slot? key writer) m₂ = .ok r₂ := by
      cases m₂ with
      | dict e' t' qs => exact hr₂
      | _ => cases hm
    rw [written, Assembly.outcome, hm₂]
    exact Prod.ext haccepted rfl
  have hslot : ∀ r, (s.put key writer r).slot? key writer = some r := fun r => by
    rw [slot?_put, if_pos ⟨rfl, rfl⟩]
  refine ⟨s.put key writer r₂, r₁, r₂, by rw [update_eq, hwritten]; rfl, hslot r₁, hslot r₂,
    hr.timeless_eq, fun way v₁ hv₁ => ?_⟩
  obtain ⟨v₂, hv₂, hv⟩ := hr.exists_standing hv₁
  refine ⟨v₂, hv₂, ?_⟩
  cases hv with
  | of_parts _ hdrawn _ =>
    refine (hdrawn.noLater_or hd).imp_right ?_
    rintro ⟨hnone, a, c, ha, hca, hc, he₁, he₂⟩
    obtain ⟨v, hv, hvc⟩ := Option.bind_eq_some_iff.1 hc
    obtain ⟨old, hold, hv⟩ := Option.bind_eq_some_iff.1 hv
    exact ⟨hnone, old, v, a, c, hold, hv, hvc, hca, ha, he₁, he₂⟩

/-- Two texts that live on are written anew to live for 500 and for 1000. -/
theorem longer_life_outlives_texts : ∃ s₂ r₁ r₂,
    (textsStored.update 0 ⟨"writerP"⟩ "k" textsInSet (askingFor 1000 none)).1 = .ok s₂ ∧
    (textsStored.step (.write 0 ⟨"writerP"⟩ "k" textsInSet (askingFor 500 none))).slot? "k"
      ⟨"writerP"⟩ = some r₁ ∧ s₂.slot? "k" ⟨"writerP"⟩ = some r₂ ∧
    ∀ way v₁, r₁.standing? way = some v₁ →
      ∃ v₂, r₂.standing? way = some v₂ ∧ v₁.expiry.NoLater v₂.expiry := by
  have hg : textsStored.grammar.IsStock := Grammar.isStock_standard.withProbe _
  have hok : (textsStored.update 0 ⟨"writerP"⟩ "k" textsInSet (askingFor 500 none)).1 =
      .ok (textsStored.step (.write 0 ⟨"writerP"⟩ "k" textsInSet (askingFor 500 none))) := rfl
  obtain ⟨s₂, r₁, r₂, hs₂, hr₁, hr₂, _, hplaces⟩ :=
    longer_life_outlives hg (show (500 : Duration) ≤ 1000 by decide) hok
  refine ⟨s₂, r₁, r₂, congrArg Prod.fst hs₂, hr₁, hr₂, fun way v₁ hv₁ => ?_⟩
  obtain ⟨v₂, hv₂, hlater | ⟨hpast, _⟩⟩ := hplaces way v₁ hv₁
  · exact ⟨v₂, hv₂, hlater⟩
  · cases hpast

/-- A life past the calendar leaves a dict that lives until 100 as it is, where one of 500 lengthens
its life. -/
theorem not_longer_life_outlives :
    ¬ ∀ (s s₁ : Store) (now : Instant) (writer : PeerId) (key : String) (doc : Node)
      (d₁ d₂ : Duration), s.grammar.IsStock → doc.isPlain = true → d₁ ≤ d₂ →
      (s.update now writer key doc (.lasting d₁)).1 = .ok s₁ →
      ∃ s₂ r₁ r₂, (s.update now writer key doc (.lasting d₂)).1 = .ok s₂ ∧
        s₁.slot? key writer = some r₁ ∧ s₂.slot? key writer = some r₂ ∧
        ∀ way v₁ v₂, r₁.standing? way = some v₁ → r₂.standing? way = some v₂ →
          v₁.expiry.NoLater v₂.expiry := by
  intro h
  obtain ⟨s₂, r₁, r₂, hs₂, hr₁, hr₂, hplaces⟩ := h textsStored
    (textsStored.step (.write 0 ⟨"writerP"⟩ "k" textsInSet (.lasting 500))) 0 ⟨"writerP"⟩ "k"
    textsInSet 500 (Duration.longest + 1) (Grammar.isStock_standard.withProbe _) (by decide)
    (by decide) rfl
  have hroot₂ : (textsStored.update 0 ⟨"writerP"⟩ "k" textsInSet
      (.lasting (Duration.longest + 1))).1.map (fun s => (s.slot? "k" ⟨"writerP"⟩).map expiry) =
      .ok (some (some 100)) := rfl
  rw [hs₂] at hroot₂
  have hexpiry₂ : r₂.expiry = some 100 := by
    have hslot : (s₂.slot? "k" ⟨"writerP"⟩).map expiry = some (some 100) := Except.ok.inj hroot₂
    rw [hr₂] at hslot
    exact Option.some.inj hslot
  have hexpiry₁ : r₁.expiry = some 500 := (Option.some.inj (congrArg (Option.map expiry) hr₁)).symm
  have hlater := hplaces [] r₁ r₂ rfl rfl
  rw [hexpiry₁, hexpiry₂] at hlater
  exact absurd hlater (by decide : ¬ (500 : Instant) ≤ 100)

end Store

end PeerRecords
