import Mathlib
import PeerRecords.Proofs.Sweep.Collectible
import PeerRecords.Proofs.Store.Runs

/-
  Sweeps one after the other.
  What is collectible stays collectible (`isCollectible_mono`), and trimming a document that stays
  does not change what is collectible later (`isCollectible_trimmed`): a container without
  expiration whose last part goes has gone in that same sweep. So an early sweep is lost in a later
  one (`sweep_sweep`), and since every place is kept or counted (`length_places`) the counts add up
  (`sweeps_add_up`). `Store.collect_collect` is the same for all the documents of a store.
-/

namespace PeerRecords.Node

variable {now t₁ t₂ : Instant}

/-! ## What an early sweep changes for a later one -/

theorem isExpired_mono {e : Expiry} (h : t₁ ≤ t₂) (he : e.isExpired t₁ = true) :
    e.isExpired t₂ = true := by
  cases e with
  | none => exact he
  | some t => exact decide_eq_true (Int.le_trans (of_decide_eq_true he) h)

theorem goesWithParts_mono {e : Expiry} {count : Nat} (h : t₁ ≤ t₂)
    (he : goesWithParts e t₁ count = true) : goesWithParts e t₂ count = true := by
  cases e with
  | none => exact he
  | some t => exact decide_eq_true (Int.le_trans (of_decide_eq_true he) h)

/-- What is collectible stays so. -/
theorem isCollectible_mono {n : Node} (h : t₁ ≤ t₂) (hn : n.isCollectible t₁ = true) :
    n.isCollectible t₂ = true := by
  induction n using induct_children with
  | step n ih =>
    cases hc : n.isContainer with
    | false =>
      rw [isCollectible_of_not_container hc] at hn ⊢
      exact isExpired_mono h hn
    | true =>
      rw [isCollectible_of_container hc, Bool.and_eq_true, List.all_eq_true] at hn ⊢
      exact ⟨fun c hmem => ih c (parts_subset_children hmem) (hn.1 c hmem),
        goesWithParts_mono h hn.2⟩

theorem parts_trimmed (n : Node) : (n.trimmed now).parts =
    (n.parts.filter fun c => !c.isCollectible now).map (trimmed now) := by
  rw [parts_eq_map, branches_trimmed, parts_eq_map, List.filter_map, List.map_map, List.map_map]
  rfl

theorem isContainer_trimmed (n : Node) : (n.trimmed now).isContainer = n.isContainer := by
  cases n <;> rfl

theorem expiry_trimmed (n : Node) : (n.trimmed now).expiry = n.expiry := by
  cases n <;> rfl

theorem trimmed_of_not_container {n : Node} (h : n.isContainer = false) :
    n.trimmed now = n := by
  cases n with
  | dict e t ps => cases h
  | set e t es => cases h
  | _ => rfl

/-- A container that stays goes with its parts later just if it goes with those that are left. -/
theorem goesWithParts_trimmed {n : Node} (hc : n.isContainer = true)
    (hn : n.isCollectible t₁ = false) :
    goesWithParts n.expiry t₂ (n.trimmed t₁).parts.length =
      goesWithParts n.expiry t₂ n.parts.length := by
  cases he : n.expiry with
  | some t => rfl
  | none =>
    rw [isCollectible_of_container hc, he] at hn
    have hpos : 0 < (n.trimmed t₁).parts.length ↔ 0 < n.parts.length := by
      rw [parts_trimmed, List.length_map, List.length_pos_iff_exists_mem,
        List.length_pos_iff_exists_mem]
      constructor
      · rintro ⟨c, hc⟩
        exact ⟨c, (List.mem_filter.1 hc).1⟩
      · -- With a part to lose, the container stays only because one of its parts does.
        rintro ⟨c, hc⟩
        have hlen : goesWithParts none t₁ n.parts.length = true :=
          decide_eq_true (List.length_pos_of_mem hc)
        rw [hlen, Bool.and_true, List.all_eq_false] at hn
        obtain ⟨d, hd, hstays⟩ := hn
        exact ⟨d, List.mem_filter.2 ⟨hd, by simpa using hstays⟩⟩
    exact decide_eq_decide.2 hpos

/-- Trimming a node that stays does not change whether it is to go later. -/
theorem isCollectible_trimmed {n : Node} (h : t₁ ≤ t₂) (hn : n.isCollectible t₁ = false) :
    (n.trimmed t₁).isCollectible t₂ = n.isCollectible t₂ := by
  induction n using induct_children with
  | step n ih =>
    cases hc : n.isContainer with
    | false => rw [trimmed_of_not_container hc]
    | true =>
      have hall : (n.trimmed t₁).parts.all (isCollectible t₂) =
          n.parts.all (isCollectible t₂) := by
        rw [parts_trimmed, List.all_map, List.all_filter, Bool.eq_iff_iff, List.all_eq_true,
          List.all_eq_true]
        refine forall₂_congr fun c hmem => ?_
        cases hgoes : c.isCollectible t₁ with
        | true => simp [isCollectible_mono h hgoes]
        | false => simp [ih c (parts_subset_children hmem) hgoes]
      rw [isCollectible_of_container (by rwa [isContainer_trimmed]), hall, expiry_trimmed,
        goesWithParts_trimmed hc hn, ← isCollectible_of_container hc]

/-- Of two passes over a list that each drop some items and change the others, the first is lost
in the second if it drops and changes nothing that the second does not. -/
theorem filter_map_again {α : Type} {goes₁ goes₂ : α → Bool} {f₁ f₂ : α → α} {xs : List α}
    (hgoes : ∀ x ∈ xs, goes₁ x = true → goes₂ x = true)
    (hstays : ∀ x ∈ xs, goes₁ x = false → goes₂ (f₁ x) = goes₂ x)
    (hf : ∀ x ∈ xs, f₂ (f₁ x) = f₂ x) :
    (((xs.filter fun x => !goes₁ x).map f₁).filter fun x => !goes₂ x).map f₂ =
      (xs.filter fun x => !goes₂ x).map f₂ := by
  induction xs with
  | nil => rfl
  | cons x xs ih =>
    have hrest := ih (fun y hy => hgoes y (List.mem_cons_of_mem _ hy))
      (fun y hy => hstays y (List.mem_cons_of_mem _ hy))
      (fun y hy => hf y (List.mem_cons_of_mem _ hy))
    have hx := hgoes x List.mem_cons_self
    have hx' := hstays x List.mem_cons_self
    cases h₁ : goes₁ x with
    | true => simp [h₁, hx h₁, hrest]
    | false =>
      cases h₂ : goes₂ x with
      | true => simp [h₁, h₂, hx' h₁, hrest]
      | false => simp [h₁, h₂, hx' h₁, hrest, hf x List.mem_cons_self]

theorem trimmed_trimmed (h : t₁ ≤ t₂) (n : Node) :
    (n.trimmed t₁).trimmed t₂ = n.trimmed t₂ := by
  induction n using induct_children with
  | step n ih =>
    cases n with
    | dict e t ps =>
      have hps : trimmedEntries t₂ (trimmedEntries t₁ ps) = trimmedEntries t₂ ps := by
        rw [trimmedEntries_eq, trimmedEntries_eq, trimmedEntries_eq]
        exact filter_map_again (fun p _ => isCollectible_mono h)
          (fun p _ => isCollectible_trimmed h)
          fun p hp => congrArg (Prod.mk p.1) (ih p.2 (snd_mem_entryNodes hp))
      rw [trimmed, trimmed, hps, trimmed]
    | set e t es =>
      have hes : trimmedAll t₂ (trimmedAll t₁ es) = trimmedAll t₂ es := by
        rw [trimmedAll_eq, trimmedAll_eq, trimmedAll_eq]
        exact filter_map_again (fun c _ => isCollectible_mono h)
          (fun c _ => isCollectible_trimmed h) ih
      rw [trimmed, trimmed, hes, trimmed]
    | _ => rfl

/-! ## Counts -/

/-- Every place is left or counted. -/
theorem length_places (now : Instant) (n : Node) :
    n.places.length = (n.trimmed now).places.length + countCollectible now n.places := by
  have hleft : (n.trimmed now).places.length = (kept now n.places).length := by
    have := congrArg List.length (outline_places_trimmed now n)
    rwa [List.length_map, List.length_map] at this
  have hsplit := List.length_eq_countP_add_countP (fun x : Place => x.node.isCollectible now)
    (l := n.places)
  rw [hleft, kept, ← List.countP_eq_length_filter, hsplit, Nat.add_comm]
  simp [countCollectible]

theorem countCollectible_of_isCollectible {n : Node} (h : n.isCollectible now = true) :
    countCollectible now n.places = n.places.length :=
  List.countP_eq_length.2 fun _ hx => isCollectible_of_mem_places h hx

/-- What a later sweep counts in what an earlier one leaves. -/
theorem countCollectible_trimmed (h : t₁ ≤ t₂) (n : Node) :
    countCollectible t₁ n.places + countCollectible t₂ (n.trimmed t₁).places =
      countCollectible t₂ n.places := by
  have hearly := length_places t₁ n
  have hlate := length_places t₂ n
  have hleft := length_places t₂ (n.trimmed t₁)
  rw [trimmed_trimmed h] at hleft
  omega

/-! ## Sweeps of what is left -/

/-- A sweep of what an earlier one has left, with the counts of both. -/
def sweepOn (now : Instant) : Option Node × Nat → Option Node × Nat
  | (none, removed) => (none, removed)
  | (some n, removed) => ((n.sweep now).1, removed + (n.sweep now).2)

theorem sweep_sweep (h : t₁ ≤ t₂) (n : Node) : sweepOn t₂ (n.sweep t₁) = n.sweep t₂ := by
  rw [sweep_eq t₁, sweep_eq t₂]
  cases hn : n.isCollectible t₁ with
  | true =>
    have hlate := isCollectible_mono h hn
    rw [countCollectible_of_isCollectible hn, countCollectible_of_isCollectible hlate, hlate]
    rfl
  | false =>
    have hlate : sweepOn t₂ (some (n.trimmed t₁), countCollectible t₁ n.places) =
        (if n.isCollectible t₂ then none else some (n.trimmed t₂),
          countCollectible t₁ n.places + countCollectible t₂ (n.trimmed t₁).places) := by
      rw [sweepOn, sweep_eq, isCollectible_trimmed h hn, trimmed_trimmed h]
    rw [← countCollectible_trimmed h, ← hlate]
    rfl

/-- What a sweep leaves it leaves again. -/
theorem sweep_of_sweep {n m : Node} (h : (n.sweep now).1 = some m) :
    m.sweep now = (some m, 0) := by
  obtain ⟨hstays, rfl⟩ := sweep_fst_eq_some_iff.1 h
  have hcount := countCollectible_trimmed (Int.le_refl now) n
  rw [sweep_eq, isCollectible_trimmed (Int.le_refl now) hstays, hstays,
    trimmed_trimmed (Int.le_refl now)]
  exact congrArg (Prod.mk _) (by omega)

/-- Every value of a dict and element of a set that a sweep comes to is left or counted. -/
theorem length_places_sweep (now : Instant) (n : Node) : n.places.length =
    ((n.sweep now).1.elim 0 fun m => m.places.length) + (n.sweep now).2 := by
  rw [sweep_eq]
  cases hn : n.isCollectible now with
  | true => exact (countCollectible_of_isCollectible hn).symm.trans (Nat.zero_add _).symm
  | false => exact length_places now n

/-- How often a document is swept does not matter. A sweep of what an earlier one has left leaves
what a single late sweep leaves, and the counts add up to its count. A sweep at the time of the last
one changes nothing and counts nothing. What a sweep comes to is left or counted. -/
theorem sweeps_add_up (n : Node) :
    (∀ t₁ t₂ : Instant, t₁ ≤ t₂ → sweepOn t₂ (n.sweep t₁) = n.sweep t₂) ∧
    (∀ (now : Instant) (m : Node), (n.sweep now).1 = some m → m.sweep now = (some m, 0)) ∧
    ∀ now : Instant, n.places.length =
      ((n.sweep now).1.elim 0 fun m => m.places.length) + (n.sweep now).2 :=
  ⟨fun _ _ h => sweep_sweep h n, fun _ _ h => sweep_of_sweep h,
    fun now => length_places_sweep now n⟩

/-- A set without expiration loses one element at 4 and goes with the other at 9, as it does in a
single sweep at 9. -/
theorem sweeps_add_up_emptied :
    let early := leaf (some 3) (.string "early")
    let late := leaf (some 8) (.string "late")
    let before := set none "outer" [set none "inner" [early, late]]
    before.sweep 4 = (some (set none "outer" [set none "inner" [late]]), 1) ∧
      sweepOn 9 (before.sweep 4) = (none, 3) ∧ before.places.length = 3 := by
  intro early late before
  exact ⟨rfl, (sweeps_add_up before).1 4 9 (by decide), (sweeps_add_up before).2.2 9⟩

end PeerRecords.Node

namespace PeerRecords

variable {t₁ t₂ : Instant}

/-! ## Stores -/

theorem Table.ext {κ β : Type} [TextKey κ] {s t : Table κ β} (h : s.entries = t.entries) :
    s = t := by
  cases s
  cases t
  cases h
  rfl

theorem Table.filterMap_filterMap {κ α β γ : Type} [TextKey κ] (t : Table κ α) (f : α → Option β)
    (g : β → Option γ) : (t.filterMap f).filterMap g = t.filterMap fun v => (f v).bind g := by
  have hentry : ∀ p : κ × α,
      ((f p.2).map fun v => (p.1, v)).bind (fun p => (g p.2).map fun v => (p.1, v)) =
        ((f p.2).bind g).map fun v => (p.1, v) := fun p => by cases f p.2 <;> rfl
  refine Table.ext (List.filterMap_filterMap.trans ?_)
  rw [funext hentry]
  rfl

theorem Table.map_map {κ α β γ : Type} [TextKey κ] (t : Table κ α) (f : α → β) (g : β → γ) :
    (t.map f).map g = t.map fun v => g (f v) := t.filterMap_filterMap _ _

theorem Table.entries_map {κ α β : Type} [TextKey κ] (t : Table κ α) (f : α → β) :
    (t.map f).entries = t.entries.map fun p => (p.1, f p.2) := by
  rw [map, filterMap, ← List.filterMap_eq_map]
  rfl

/-- Counts of two passes add up over a list if they do for each item, the second pass counting what
the first has left. -/
theorem sum_map_add_filterMap {α : Type} {left : α → Option α} {early late : α → Nat}
    (h : ∀ x, early x + (left x).elim 0 late = late x) (xs : List α) :
    (xs.map early).sum + ((xs.filterMap left).map late).sum = (xs.map late).sum := by
  induction xs with
  | nil => rfl
  | cons x xs ih =>
    have hx := h x
    rw [List.map_cons, List.sum_cons, List.map_cons, List.sum_cons, ← hx, ← ih,
      List.filterMap_cons]
    cases left x with
    | none => simp only [Option.elim]; omega
    | some y => simp only [Option.elim, List.map_cons, List.sum_cons]; omega

namespace SweepCounts

instance : Std.Associative add := ⟨fun a b c => by simp [add, Nat.add_assoc]⟩

theorem total_cons (c : SweepCounts) (cs : List SweepCounts) :
    total (c :: cs) = c.add (total cs) := by
  have hc : ({} : SweepCounts).add c = c.add {} := by simp [add]
  rw [total, List.foldl_cons, hc, List.foldl_assoc, ← total]

theorem documentsRemoved_total (cs : List SweepCounts) :
    (total cs).documentsRemoved = (cs.map (·.documentsRemoved)).sum := by
  induction cs with
  | nil => rfl
  | cons c cs ih => rw [total_cons, List.map_cons, List.sum_cons, ← ih, add]

theorem nodesRemoved_total (cs : List SweepCounts) :
    (total cs).nodesRemoved = (cs.map (·.nodesRemoved)).sum := by
  induction cs with
  | nil => rfl
  | cons c cs ih => rw [total_cons, List.map_cons, List.sum_cons, ← ih, add]

end SweepCounts

namespace Store

/-- All documents of a store, by key and writer. -/
def documents (s : Store) : List Node :=
  s.records.entries.flatMap fun r => r.2.entries.map (·.2)

theorem documents_collect (s : Store) (now : Instant) :
    (s.collect now).documents = s.documents.filterMap fun doc => (doc.sweep now).1 := by
  have hwriters : ∀ r : String × Writers,
      (r.2.filterMap fun doc => (doc.sweep now).1).entries.map (·.2) =
        (r.2.entries.map (·.2)).filterMap fun doc => (doc.sweep now).1 := fun r => by
    have hentry : ∀ p : PeerId × Node,
        ((p.2.sweep now).1.map fun m => (p.1, m)).map (·.2) = (p.2.sweep now).1 := fun p => by
      cases (p.2.sweep now).1 <;> rfl
    rw [Table.filterMap, List.map_filterMap, List.filterMap_map, funext hentry]
    rfl
  rw [documents, documents, collect, Table.entries_map, List.flatMap_map, List.filterMap_flatMap]
  exact congrArg (List.flatMap · _) (funext hwriters)

theorem collectCounts_eq (s : Store) (now : Instant) :
    s.collectCounts now = .total (s.documents.map (.ofDocument now)) := by
  rw [collectCounts, documents, List.map_flatMap, List.map_flatMap]
  simp only [List.map_map]
  rfl

/-- How often the collector runs does not matter: a run at a later time leaves what it would have
left without the earlier one, and the documents and nodes removed add up. -/
theorem collect_collect (h : t₁ ≤ t₂) (s : Store) :
    (s.collect t₁).collect t₂ = s.collect t₂ ∧
    (s.collectCounts t₁).documentsRemoved + ((s.collect t₁).collectCounts t₂).documentsRemoved =
      (s.collectCounts t₂).documentsRemoved ∧
    (s.collectCounts t₁).nodesRemoved + ((s.collect t₁).collectCounts t₂).nodesRemoved =
      (s.collectCounts t₂).nodesRemoved := by
  have hdoc : ∀ doc : Node, Node.sweepOn t₂ (doc.sweep t₁) = doc.sweep t₂ := Node.sweep_sweep h
  have hleft : ∀ doc : Node,
      ((doc.sweep t₁).1.bind fun m => (m.sweep t₂).1) = (doc.sweep t₂).1 := fun doc => by
    rw [← hdoc]
    rcases doc.sweep t₁ with ⟨_ | m, removed⟩ <;> rfl
  rw [collectCounts_eq, collectCounts_eq, collectCounts_eq, documents_collect,
    SweepCounts.documentsRemoved_total, SweepCounts.documentsRemoved_total,
    SweepCounts.documentsRemoved_total, SweepCounts.nodesRemoved_total,
    SweepCounts.nodesRemoved_total, SweepCounts.nodesRemoved_total]
  simp only [List.map_map]
  refine ⟨?_, sum_map_add_filterMap (fun doc => ?_) _, sum_map_add_filterMap (fun doc => ?_) _⟩
  · rw [collect, collect, collect, Table.map_map]
    simp only [Table.filterMap_filterMap, hleft]
  · simp only [SweepCounts.ofDocument, Function.comp]
    rw [← hdoc]
    rcases doc.sweep t₁ with ⟨_ | m, removed⟩
    · rfl
    · exact Nat.zero_add _
  · simp only [SweepCounts.ofDocument, Function.comp]
    rw [← hdoc]
    rcases doc.sweep t₁ with ⟨_ | m, removed⟩ <;> rfl

end Store

end PeerRecords
