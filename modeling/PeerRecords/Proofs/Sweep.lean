import PeerRecords.Sweep
import PeerRecords.Proofs.Node.Parts

/-
  What a sweep leaves.
  The parts that are left are those of before, in order, each swept itself: `sweepAll_fst` and
  `sweepEntries_fst`; nothing but dicts and sets is swept inside. `everywhere_sweep` carries a
  property of single nodes that no dict and no set loses with its parts through a whole sweep.
  `Reached v n` says that the sweep of `n` comes to `v`, through values of dicts and elements of
  sets.
-/

namespace PeerRecords.Node

variable {now : Instant}

/-- The nodes that a sweep of the node goes on to. -/
def parts : Node → List Node
  | .dict _ _ ps => ps.map (·.2)
  | .set _ _ es => es
  | _ => []

/-- The sweep of a node comes to another. -/
def Reached (v n : Node) : Prop := Relation.ReflTransGen (fun m c => c ∈ m.parts) n v

theorem Reached.refl (n : Node) : n.Reached n := Relation.ReflTransGen.refl

theorem Reached.of_mem {v c n : Node} (h : v.Reached c) (hc : c ∈ n.parts) : v.Reached n :=
  Relation.ReflTransGen.head hc h

theorem reached_iff {v n : Node} : v.Reached n ↔ v = n ∨ ∃ c ∈ n.parts, v.Reached c := by
  rw [Reached, Relation.ReflTransGen.cases_head_iff]
  exact or_congr eq_comm Iff.rfl

theorem parts_subset_children {n c : Node} (h : c ∈ n.parts) : c ∈ n.children := by
  cases n with
  | dict e t ps =>
    obtain ⟨p, hp, rfl⟩ := List.mem_map.1 h
    exact snd_mem_entryNodes hp
  | set e t es => exact h
  | _ => exact absurd h List.not_mem_nil

theorem Reached.within {v n : Node} (h : v.Reached n) : v.Within n :=
  Relation.ReflTransGen.mono (fun _ _ => parts_subset_children) _ _ h

@[simp] theorem parts_withExpiry (e : Expiry) (n : Node) : (n.withExpiry e).parts = n.parts := by
  cases n <;> rfl

theorem sweepAll_fst (es : List Node) :
    (sweepAll now es).1 = es.filterMap fun n => (sweep now n).1 := by
  induction es with
  | nil => rfl
  | cons n es ih =>
    rw [sweepAll, List.filterMap_cons, ← ih]
    rcases sweep now n with ⟨_ | m, inside⟩ <;> rfl

theorem sweepEntries_fst (ps : List (Node × Node)) :
    (sweepEntries now ps).1 = ps.filterMap fun p => (sweep now p.2).1.map fun w => (p.1, w) := by
  induction ps with
  | nil => rfl
  | cons p ps ih =>
    obtain ⟨k, v⟩ := p
    rw [sweepEntries, List.filterMap_cons, ← ih]
    rcases sweep now v with ⟨_ | w, inside⟩ <;> rfl

/-- The keys that are left are among those of before, in order. -/
theorem map_fst_sweepEntries (ps : List (Node × Node)) :
    ((sweepEntries now ps).1.map (·.1)).Sublist (ps.map (·.1)) := by
  rw [sweepEntries_fst]
  induction ps with
  | nil => exact .slnil
  | cons p ps ih =>
    rw [List.filterMap_cons, List.map_cons]
    cases (sweep now p.2).1 with
    | none => exact ih.cons _
    | some w => exact ih.cons_cons _

/-- Whether the node is a dict or a set. -/
def isContainer : Node → Bool
  | .dict _ _ _ | .set _ _ _ => true
  | _ => false

/-- The ways in which something is left of a node. -/
inductive Left (now : Instant) : Node → Node → Prop where
  | dict (e : Expiry) (t : String) (ps : List (Node × Node)) :
    Left now (.dict e t ps) (.dict e t (sweepEntries now ps).1)
  | set (e : Expiry) (t : String) (es : List Node) :
    Left now (.set e t es) (.set e t (sweepAll now es).1)
  | whole (n : Node) (h : n.isContainer = false) : Left now n n

theorem left_of_sweep {n m : Node} (h : (n.sweep now).1 = some m) : Left now n m := by
  have whole : n.isContainer = false →
      (if Expiry.isExpired n.expiry now then none else some n) = some m → Left now n m := by
    intro hn h
    split at h
    · cases h
    · cases h
      exact .whole n hn
  cases n with
  | dict e t ps =>
    rw [sweep] at h
    dsimp only at h
    split at h
    · cases h
    · cases h
      exact .dict e t ps
  | set e t es =>
    rw [sweep] at h
    dsimp only at h
    split at h
    · cases h
    · cases h
      exact .set e t es
  | leaf e v => exact whole rfl h
  | predicate e t as nt ps => exact whole rfl h
  | identity e i us => exact whole rfl h
  | claim e a b s g us => exact whole rfl h
  | verify e s us => exact whole rfl h
  | reachable e m vt vs ut uvs us => exact whole rfl h

theorem mem_sweepAll {es : List Node} {c : Node} (h : c ∈ (sweepAll now es).1) :
    ∃ x ∈ es, (x.sweep now).1 = some c := by
  rw [sweepAll_fst] at h
  exact List.mem_filterMap.1 h

theorem mem_sweepEntries {ps : List (Node × Node)} {q : Node × Node}
    (h : q ∈ (sweepEntries now ps).1) : ∃ p ∈ ps, p.1 = q.1 ∧ (p.2.sweep now).1 = some q.2 := by
  rw [sweepEntries_fst] at h
  obtain ⟨p, hp, hq⟩ := List.mem_filterMap.1 h
  obtain ⟨w, hw, rfl⟩ := Option.map_eq_some_iff.1 hq
  exact ⟨p, hp, rfl, hw⟩

/-- What is left inside a node was there before, as it is or as a part that was swept. -/
theorem Left.child {n m c : Node} (h : Left now n m) (hc : c ∈ m.children) :
    c ∈ n.children ∨ ∃ x ∈ n.parts, (x.sweep now).1 = some c := by
  cases h with
  | dict e t ps =>
    obtain ⟨q, hq, hcq⟩ := mem_entryNodes.1 hc
    obtain ⟨p, hp, hk, hv⟩ := mem_sweepEntries hq
    obtain rfl | rfl := hcq
    · rw [← hk]
      exact .inl (fst_mem_entryNodes hp)
    · exact .inr ⟨p.2, List.mem_map_of_mem hp, hv⟩
  | set e t es => exact .inr (mem_sweepAll hc)
  | whole n h => exact .inl hc

/-- A container of which something is left stays. -/
theorem isSpent_of_pos (e : Expiry) (now : Instant) (before : Nat) {after : Nat} (h : 0 < after) :
    isSpent e now before after = false := by
  unfold isSpent
  rw [beq_eq_false_iff_ne.2 (Nat.ne_of_gt h), Bool.false_and]

theorem sweep_set_of_mem {e : Expiry} {t : String} {es : List Node} {c : Node}
    (h : c ∈ (sweepAll now es).1) :
    ((set e t es).sweep now).1 = some (set e t (sweepAll now es).1) := by
  have hspent := isSpent_of_pos e now es.length (List.length_pos_of_mem h)
  rw [sweep]
  exact if_neg (by simp [hspent])

theorem sweep_dict_of_mem {e : Expiry} {t : String} {ps : List (Node × Node)} {q : Node × Node}
    (h : q ∈ (sweepEntries now ps).1) :
    ((dict e t ps).sweep now).1 = some (dict e t (sweepEntries now ps).1) := by
  have hspent := isSpent_of_pos e now ps.length (List.length_pos_of_mem h)
  rw [sweep]
  exact if_neg (by simp [hspent])

/-- What is left of a part stands in what is left of the node. -/
theorem exists_sweep_of_mem_parts {n c m : Node} (hc : c ∈ n.parts)
    (hm : (c.sweep now).1 = some m) : ∃ r, (n.sweep now).1 = some r ∧ m ∈ r.children := by
  cases n with
  | dict e t ps =>
    obtain ⟨p, hp, rfl⟩ := List.mem_map.1 hc
    have hq : (p.1, m) ∈ (sweepEntries now ps).1 := by
      rw [sweepEntries_fst, List.mem_filterMap]
      exact ⟨p, hp, by rw [hm]; rfl⟩
    exact ⟨_, sweep_dict_of_mem hq, snd_mem_entryNodes hq⟩
  | set e t es =>
    have hq : m ∈ (sweepAll now es).1 := by
      rw [sweepAll_fst, List.mem_filterMap]
      exact ⟨c, hc, hm⟩
    exact ⟨_, sweep_set_of_mem hq, hq⟩
  | _ => exact absurd hc List.not_mem_nil

theorem sweepAll_eq_self {es : List Node}
    (hes : ∀ n ∈ es, ∀ m, (n.sweep now).2 = 0 → (n.sweep now).1 = some m → m = n)
    (h : (sweepAll now es).2 = 0) : (sweepAll now es).1 = es := by
  induction es with
  | nil => rfl
  | cons n es ih =>
    have hn := hes n List.mem_cons_self
    have hrest := ih fun x hx => hes x (List.mem_cons_of_mem _ hx)
    rw [sweepAll] at h ⊢
    generalize hs : sweep now n = s at h hn ⊢
    generalize sweepAll now es = r at h hrest ⊢
    obtain ⟨_ | m, inside⟩ := s
    · exact absurd h (by simp)
    · obtain ⟨hinside, hremoved⟩ : inside = 0 ∧ r.2 = 0 := by
        have hsum : inside + r.2 = 0 := h
        omega
      exact congrArg₂ List.cons (hn m hinside rfl) (hrest hremoved)

theorem sweepEntries_eq_self {ps : List (Node × Node)}
    (hps : ∀ p ∈ ps, ∀ m, (p.2.sweep now).2 = 0 → (p.2.sweep now).1 = some m → m = p.2)
    (h : (sweepEntries now ps).2 = 0) : (sweepEntries now ps).1 = ps := by
  induction ps with
  | nil => rfl
  | cons p ps ih =>
    obtain ⟨k, v⟩ := p
    have hv := hps (k, v) List.mem_cons_self
    have hrest := ih fun x hx => hps x (List.mem_cons_of_mem _ hx)
    rw [sweepEntries] at h ⊢
    dsimp only at hv
    generalize hs : sweep now v = s at h hv ⊢
    generalize sweepEntries now ps = r at h hrest ⊢
    obtain ⟨_ | m, inside⟩ := s
    · exact absurd h (by simp)
    · obtain ⟨hinside, hremoved⟩ : inside = 0 ∧ r.2 = 0 := by
        have hsum : inside + r.2 = 0 := h
        omega
      exact congrArg₂ (fun w rest => (k, w) :: rest) (hv m hinside rfl) (hrest hremoved)

/-- A node out of which nothing is taken stays as it is or goes. -/
theorem eq_of_sweep_zero {n m : Node} (hzero : (n.sweep now).2 = 0)
    (h : (n.sweep now).1 = some m) : m = n := by
  induction n using induct_children generalizing m with
  | step n ih =>
    cases left_of_sweep h with
    | dict e t ps =>
      rw [sweepEntries_eq_self (fun p hp m => ih p.2 (snd_mem_entryNodes hp)) hzero]
    | set e t es =>
      have hes : (sweepAll now es).1 = es := sweepAll_eq_self (fun x hx m => ih x hx) hzero
      rw [hes]
    | whole n hn => rfl

/-- A property of single nodes that a node keeps when parts of it are swept holds throughout what
a sweep leaves. -/
theorem everywhere_sweep {P : Node → Prop} (hP : ∀ {n m : Node}, Left now n m → P n → P m)
    {n m : Node} (hn : n.Everywhere P) (h : (n.sweep now).1 = some m) : m.Everywhere P := by
  induction n using induct_children generalizing m with
  | step n ih =>
    have hm := left_of_sweep h
    refine everywhere_iff.2 ⟨hP hm hn.self, fun c hc => ?_⟩
    obtain hcn | ⟨x, hx, hxc⟩ := hm.child hc
    · exact hn.child hcn
    · have hxn := parts_subset_children hx
      exact ih x hxn (hn.child hxn) hxc

end PeerRecords.Node
