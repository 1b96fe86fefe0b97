import PeerRecords.Proofs.Assembly
import PeerRecords.Proofs.Sweep.Repeated

/-
  Documents with one expiration throughout.
  Assembly gives every node that a sweep comes to the expiration of the write (`stamped_of_yields`).
  Such a document is left whole before it and taken as a whole from it on, with the count of all
  that a sweep comes to (`sweep_of_stamped`).
-/

namespace PeerRecords.Node

open Grammar

/-- Every node that a sweep comes to has the expiration `e`. -/
def Stamped (e : Expiry) (n : Node) : Prop := ∀ v : Node, v.Reached n → v.expiry = e

theorem stamped_iff {e : Expiry} {n : Node} :
    n.Stamped e ↔ n.expiry = e ∧ ∀ c ∈ n.parts, c.Stamped e := by
  constructor
  · intro h
    exact ⟨h n (.refl n), fun c hc v hv => h v (hv.of_mem hc)⟩
  · rintro ⟨hn, hparts⟩ v hv
    obtain rfl | ⟨c, hc, hv⟩ := reached_iff.1 hv
    · exact hn
    · exact hparts c hc v hv

theorem stamped_of_yields {g : Grammar} {ctx : Context} {n m : Node}
    (hg : g.Upholds fun ctx _ m => m.Stamped ctx.expiry) (h : (g.assemble ctx n).Yields m) :
    m.Stamped ctx.expiry := by
  induction n using induct_children generalizing m with
  | step n ih =>
    rw [stamped_iff]
    cases made_of_yields h with
    | dict e t hqs =>
      refine ⟨rfl, fun c hc => ?_⟩
      obtain ⟨q, hq, rfl⟩ := List.mem_map.1 hc
      obtain ⟨p, hp, _, _, hv⟩ := hqs.mem hq
      exact ih p.2 (snd_mem_entryNodes hp) hv
    | set e t hfs =>
      refine ⟨rfl, fun c hc => ?_⟩
      have hc := (NodeSet.mem_addAll hc).resolve_left List.not_mem_nil
      obtain ⟨x, hx, hxc⟩ := exists_of_forall₂_right hfs hc
      exact ih x hx hxc
    | own rule hrule hm => exact stamped_iff.1 (hg rule hrule ctx n m hm)
    | _ => exact ⟨rfl, fun c hc => absurd hc List.not_mem_nil⟩

/-! ## Sweeps -/

section

variable {e : Expiry} {now : Instant} {n : Node}

/-- With one expiration throughout, a document is to be collected just if it has passed: without
one, a container has either nothing to lose or a part that stays. -/
theorem isCollectible_of_stamped (h : n.Stamped e) : n.isCollectible now = e.isExpired now := by
  induction n using induct_children with
  | step n ih =>
    obtain ⟨hn, hparts⟩ := stamped_iff.1 h
    have hall : ∀ c ∈ n.parts, c.isCollectible now = e.isExpired now :=
      fun c hc => ih c (parts_subset_children hc) (hparts c hc)
    cases hc : n.isContainer with
    | false => rw [isCollectible_of_not_container hc, hn]
    | true =>
      rw [isCollectible_of_container hc, hn]
      generalize n.parts = cs at hall
      cases e with
      | some t =>
        show (cs.all (isCollectible now) && decide (t ≤ now)) = decide (t ≤ now)
        rw [Bool.and_eq_right_iff_imp]
        intro hlate
        exact List.all_eq_true.2 fun c hc => (hall c hc).trans hlate
      | none =>
        cases cs with
        | nil => rfl
        | cons c cs => rw [List.all_cons, hall c List.mem_cons_self]; rfl

/-- A document with one expiration throughout goes as a whole, or stays as it is. -/
theorem sweep_of_stamped (h : n.Stamped e) :
    n.sweep now = if e.isExpired now then (none, n.places.length) else (some n, 0) := by
  have hgoes : n.isCollectible now = e.isExpired now := isCollectible_of_stamped h
  split
  next hlate =>
    rw [hlate] at hgoes
    rw [sweep_eq, hgoes, countCollectible_of_isCollectible hgoes]
    rfl
  next hlive =>
    rw [Bool.not_eq_true] at hlive
    have hcount : countCollectible now n.places = 0 := by
      refine List.countP_eq_zero.2 fun x hx => ?_
      have hreached : x.node.Reached n :=
        reached_iff_mem_survey.2 ⟨x.way, List.mem_cons_of_mem _ hx⟩
      have hx : x.node.Stamped e := fun v hv => h v (Relation.ReflTransGen.trans hreached hv)
      rw [isCollectible_of_stamped hx, hlive]
      exact Bool.false_ne_true
    have hsweep := sweep_eq now n
    rw [hgoes, hlive, hcount] at hsweep
    have hwhole : n.trimmed now = n :=
      eq_of_sweep_zero (congrArg Prod.snd hsweep) (congrArg Prod.fst hsweep)
    rw [hsweep, hwhole]
    rfl

end

end PeerRecords.Node
