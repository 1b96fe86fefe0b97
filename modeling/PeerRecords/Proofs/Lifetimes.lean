import PeerRecords.Proofs.Uniqueness
import PeerRecords.Proofs.Sweep.Stamped

/-
  What a write leaves until its expiration.
  `Holds t w u` is the invariant: along the dict values of the written `w` the stored `u` has all
  that was written, refreshed to live until `t` at least. An update with `w` establishes it
  (`holds_of_update`) and later updates keep it (`Holds.update`), so it does not matter how often
  a key of `w` meets the same stored key. A sweep before `t` then takes out no pair and no element
  that was written (`kept_of_holds`). It goes inside the elements of a set, though, which an update
  refreshes at their root only; so an element is left equal to the one that was written if it was
  added as it is, has no parts, or has nothing taken out of it (`elementsLast_of_stay`).
-/

namespace PeerRecords

open Node Grammar

/-- An expiration that does not come before `t`. -/
def LivesTo (t : Instant) (e : Expiry) : Prop := ∃ a, e = some a ∧ t ≤ a

theorem LivesTo.combine_left {t : Instant} {e : Expiry} (h : LivesTo t e) (d : Expiry) :
    LivesTo t (Expiry.combine e d) := by
  obtain ⟨a, rfl, ha⟩ := h
  cases d with
  | none => exact ⟨a, rfl, ha⟩
  | some b => exact ⟨max a b, rfl, Int.le_trans ha (Int.le_max_left a b)⟩

theorem LivesTo.combine_right {t : Instant} {e : Expiry} (h : LivesTo t e) (d : Expiry) :
    LivesTo t (Expiry.combine d e) := by
  obtain ⟨a, rfl, ha⟩ := h
  cases d with
  | none => exact ⟨a, rfl, ha⟩
  | some b => exact ⟨max b a, rfl, Int.le_trans ha (Int.le_max_right b a)⟩

theorem LivesTo.isExpired {t now : Instant} {e : Expiry} (h : LivesTo t e) (hnow : now < t) :
    e.isExpired now = false := by
  obtain ⟨a, rfl, ha⟩ := h
  simp only [Expiry.isExpired, decide_eq_false_iff_not]
  exact Int.not_le.2 (Int.lt_of_lt_of_le hnow ha)

theorem LivesTo.isSpent {t now : Instant} {e : Expiry} (h : LivesTo t e) (hnow : now < t)
    (before after : Nat) : isSpent e now before after = false := by
  obtain ⟨a, rfl, ha⟩ := h
  have hlate : ¬ a ≤ now := Int.not_le.2 (Int.lt_of_lt_of_le hnow ha)
  simp [Node.isSpent, hlate]

namespace Node

/-! ## What a stored document holds of a written one -/

mutual

/-- The stored `u` has what was written with `w`, to live until `t`: for each pair of a dict a key
equal to the one written, with a value that holds the one written; for each element of a set an
equal one. -/
def Holds (t : Instant) : Node → Node → Prop
  | .dict _ _ ps, u =>
    LivesTo t u.expiry ∧ ∃ e t' us, u = .dict e t' us ∧ HoldsEntries t ps us
  | .set _ _ fs, u =>
    LivesTo t u.expiry ∧ ∃ e t' us, u = .set e t' us ∧
      ∀ f ∈ fs, ∃ x ∈ us, x.eqv f = true ∧ LivesTo t x.expiry
  | _, u => LivesTo t u.expiry ∧ u.isContainer = false
termination_by structural w => w

/-- Each written pair has a stored one. -/
def HoldsEntries (t : Instant) : List (Node × Node) → List (Node × Node) → Prop
  | [], _ => True
  | (k, v) :: ps, us => (∃ q ∈ us, q.1.eqv k = true ∧ Holds t v q.2) ∧ HoldsEntries t ps us
termination_by structural ps => ps

end

theorem holdsEntries_iff {t : Instant} {ps us : List (Node × Node)} :
    HoldsEntries t ps us ↔ ∀ p ∈ ps, ∃ q ∈ us, q.1.eqv p.1 = true ∧ Holds t p.2 q.2 := by
  induction ps with
  | nil => simp [HoldsEntries]
  | cons p ps ih =>
    obtain ⟨k, v⟩ := p
    rw [HoldsEntries, ih, List.forall_mem_cons]

/-! ## Frames -/

theorem mem_foldIn {k v : Node} {step : Node → Except Error Node} {ps qs : List (Node × Node)}
    (h : Entries.foldIn k v step ps = .ok qs) {p : Node × Node} (hp : p ∈ ps) :
    ∃ q ∈ qs, (∃ e, q.1 = p.1.withExpiry e) ∧ (q.2 = p.2 ∨ step p.2 = .ok q.2) := by
  induction ps generalizing qs with
  | nil => exact absurd hp List.not_mem_nil
  | cons r ps ih =>
    unfold Entries.foldIn at h
    split at h
    · obtain ⟨w, hw, h⟩ := bind_eq_ok.1 h
      cases h
      rcases List.mem_cons.1 hp with rfl | hp
      · exact ⟨_, List.mem_cons_self, ⟨_, rfl⟩, .inr hw⟩
      · exact ⟨p, List.mem_cons_of_mem _ hp, ⟨_, (withExpiry_expiry p.1).symm⟩, .inl rfl⟩
    · obtain ⟨rs, hrs, h⟩ := bind_eq_ok.1 h
      cases h
      rcases List.mem_cons.1 hp with rfl | hp
      · exact ⟨p, List.mem_cons_self, ⟨_, (withExpiry_expiry p.1).symm⟩, .inl rfl⟩
      · obtain ⟨q, hq, hpq⟩ := ih hrs hp
        exact ⟨q, List.mem_cons_of_mem _ hq, hpq⟩

/-- What updates keep stays at an equal key when entries are folded in. -/
theorem exists_of_updateEntries {H : Node → Prop}
    (hH : ∀ x y x' : Node, H x → x.update y = .ok x' → H x') {ps qs rs : List (Node × Node)}
    (h : updateEntries ps qs = .ok rs) {k : Node}
    (hk : ∃ p ∈ ps, p.1.eqv k = true ∧ H p.2) : ∃ r ∈ rs, r.1.eqv k = true ∧ H r.2 := by
  induction qs generalizing ps with
  | nil =>
    cases h
    exact hk
  | cons q qs ih =>
    obtain ⟨key, v⟩ := q
    rw [updateEntries] at h
    obtain ⟨us, hus, h⟩ := bind_eq_ok.1 h
    obtain ⟨p, hp, hpk, hpH⟩ := hk
    obtain ⟨u, hu, ⟨e, he⟩, hstep⟩ := mem_foldIn hus hp
    refine ih h ⟨u, hu, ?_, ?_⟩
    · rw [he, eqv_withExpiry_left]
      exact hpk
    · rcases hstep with heq | hstep
      · rw [heq]
        exact hpH
      · exact hH _ _ _ hpH hstep

theorem exists_of_refresh {t : Instant} {n f : Node} {us : List Node}
    (h : ∃ x ∈ us, x.eqv f = true ∧ LivesTo t x.expiry) :
    ∃ x ∈ NodeSet.refresh n us, x.eqv f = true ∧ LivesTo t x.expiry := by
  obtain ⟨x, hx, hxf, hlives⟩ := h
  induction us with
  | nil => exact absurd hx List.not_mem_nil
  | cons y us ih =>
    unfold NodeSet.refresh
    split
    · rcases List.mem_cons.1 hx with rfl | hx
      · refine ⟨_, List.mem_cons_self, ?_, ?_⟩
        · rw [eqv_withExpiry_left]
          exact hxf
        · rw [expiry_withExpiry]
          exact hlives.combine_left _
      · exact ⟨x, List.mem_cons_of_mem _ hx, hxf, hlives⟩
    · rcases List.mem_cons.1 hx with rfl | hx
      · exact ⟨x, List.mem_cons_self, hxf, hlives⟩
      · obtain ⟨z, hz, hzf⟩ := ih hx
        exact ⟨z, List.mem_cons_of_mem _ hz, hzf⟩

/-- An element that is written again lives as long as it is written to. -/
theorem exists_of_refresh_self {t : Instant} {f : Node} (hf : f.Everywhere HasDistinctKeys)
    (hlives : LivesTo t f.expiry) (us : List Node) :
    ∃ x ∈ NodeSet.refresh f us, x.eqv f = true ∧ LivesTo t x.expiry := by
  induction us with
  | nil => exact ⟨f, List.mem_singleton_self f, eqv_refl hf, hlives⟩
  | cons y us ih =>
    unfold NodeSet.refresh
    split
    · rename_i hy
      refine ⟨_, List.mem_cons_self, ?_, ?_⟩
      · rw [eqv_withExpiry_left]
        exact hy
      · rw [expiry_withExpiry]
        exact hlives.combine_right _
    · obtain ⟨x, hx, hxf⟩ := ih
      exact ⟨x, List.mem_cons_of_mem _ hx, hxf⟩

theorem exists_of_refreshAll {t : Instant} {f : Node} {us : List Node} (new : List Node)
    (h : ∃ x ∈ us, x.eqv f = true ∧ LivesTo t x.expiry) :
    ∃ x ∈ NodeSet.refreshAll us new, x.eqv f = true ∧ LivesTo t x.expiry := by
  unfold NodeSet.refreshAll
  induction new generalizing us with
  | nil => exact h
  | cons n new ih => exact ih (exists_of_refresh h)

/-! ## Updates -/

/-- An update keeps the sort of node, and does not shorten its life. -/
theorem Updated.root {t : Instant} {a b r : Node} (h : Updated a b r) :
    r.isContainer = a.isContainer ∧ b.isContainer = a.isContainer ∧
      (LivesTo t a.expiry → LivesTo t r.expiry) ∧ (LivesTo t b.expiry → LivesTo t r.expiry) := by
  cases h <;> exact ⟨rfl, rfl, fun h => h.combine_left _, fun h => h.combine_right _⟩

/-- Later updates keep what a stored document holds of a written one. -/
theorem Holds.update {t : Instant} {w x y x' : Node} (hw : Holds t w x)
    (h : x.update y = .ok x') : Holds t w x' := by
  induction w using Node.induct generalizing x y x' with
  | dict e t' ps ih =>
    obtain ⟨hlives, e', u, us, rfl, hus⟩ := hw
    have hroot := (updated_of_update h).root (t := t)
    refine ⟨hroot.2.2.1 hlives, ?_⟩
    cases updated_of_update h with
    | dict _ e'' _ _ hrs =>
      refine ⟨_, _, _, rfl, holdsEntries_iff.2 fun p hp => ?_⟩
      exact exists_of_updateEntries (fun a b c ha hb => (ih p hp).2 ha hb) hrs
        (holdsEntries_iff.1 hus p hp)
  | set e t' fs ih =>
    obtain ⟨hlives, e', u, us, rfl, hus⟩ := hw
    have hroot := (updated_of_update h).root (t := t)
    refine ⟨hroot.2.2.1 hlives, ?_⟩
    cases updated_of_update h with
    | set _ e'' _ _ gs => exact ⟨_, _, _, rfl, fun f hf => exists_of_refreshAll gs (hus f hf)⟩
  | _ =>
    have hroot := (updated_of_update h).root (t := t)
    exact ⟨hroot.2.2.1 hw.1, hroot.1.trans hw.2⟩

/-- What was written holds itself. -/
theorem holds_self {t : Instant} {w : Node} (hstamp : w.Stamped (some t))
    (hw : w.Everywhere HasDistinctKeys) : Holds t w w := by
  induction w using Node.induct with
  | dict e t' ps ih =>
    have hs := stamped_iff.1 hstamp
    have hc := (everywhere_iff.1 hw).2
    refine ⟨⟨t, hs.1, Int.le_refl t⟩, _, _, _, rfl, holdsEntries_iff.2 fun p hp => ?_⟩
    exact ⟨p, hp, eqv_refl (hc _ (fst_mem_entryNodes hp)),
      (ih p hp).2 (hs.2 _ (List.mem_map_of_mem hp)) (hc _ (snd_mem_entryNodes hp))⟩
  | set e t' fs ih =>
    have hs := stamped_iff.1 hstamp
    have hc := (everywhere_iff.1 hw).2
    refine ⟨⟨t, hs.1, Int.le_refl t⟩, _, _, _, rfl, fun f hf => ?_⟩
    exact ⟨f, hf, eqv_refl (hc f hf), t, (stamped_iff.1 (hs.2 f hf)).1, Int.le_refl t⟩
  | _ => exact ⟨⟨t, (stamped_iff.1 hstamp).1, Int.le_refl t⟩, rfl⟩

/-- Folding an entry in gives its key the value that holds the one written. -/
theorem exists_of_foldIn_self {t : Instant} {k v : Node} (hk : k.Everywhere HasDistinctKeys)
    (hself : Holds t v v) (hupdate : ∀ old r : Node, old.update v = .ok r → Holds t v r)
    {ps qs : List (Node × Node)}
    (h : Entries.foldIn k v (fun old => old.update v) ps = .ok qs) :
    ∃ q ∈ qs, q.1.eqv k = true ∧ Holds t v q.2 := by
  induction ps generalizing qs with
  | nil =>
    cases h
    exact ⟨(k, v), List.mem_singleton_self _, eqv_refl hk, hself⟩
  | cons p ps ih =>
    unfold Entries.foldIn at h
    split at h
    · rename_i hpk
      obtain ⟨w, hw, h⟩ := bind_eq_ok.1 h
      cases h
      refine ⟨_, List.mem_cons_self, ?_, hupdate _ _ hw⟩
      rw [eqv_withExpiry_left]
      exact hpk
    · obtain ⟨rs, hrs, h⟩ := bind_eq_ok.1 h
      cases h
      obtain ⟨q, hq, hqk⟩ := ih hrs
      exact ⟨q, List.mem_cons_of_mem _ hq, hqk⟩

theorem exists_of_updateEntries_self {t : Instant} {ps qs rs : List (Node × Node)}
    (hqs : ∀ q ∈ qs, q.1.Everywhere HasDistinctKeys ∧ Holds t q.2 q.2 ∧
      ∀ old r : Node, old.update q.2 = .ok r → Holds t q.2 r)
    (h : updateEntries ps qs = .ok rs) {q : Node × Node} (hq : q ∈ qs) :
    ∃ r ∈ rs, r.1.eqv q.1 = true ∧ Holds t q.2 r.2 := by
  induction qs generalizing ps with
  | nil => exact absurd hq List.not_mem_nil
  | cons p qs ih =>
    obtain ⟨k, v⟩ := p
    rw [updateEntries] at h
    obtain ⟨us, hus, h⟩ := bind_eq_ok.1 h
    rcases List.mem_cons.1 hq with rfl | hq
    · obtain ⟨hk, hself, hupdate⟩ := hqs _ List.mem_cons_self
      exact exists_of_updateEntries (H := Holds t v) (fun x y x' hx hy => hx.update hy) h
        (exists_of_foldIn_self hk hself hupdate hus)
    · exact ih (fun q hq => hqs q (List.mem_cons_of_mem _ hq)) h hq

theorem exists_of_refreshAll_self {t : Instant} {us new : List Node}
    (hnew : ∀ f ∈ new, f.Everywhere HasDistinctKeys ∧ LivesTo t f.expiry) {f : Node}
    (hf : f ∈ new) :
    ∃ x ∈ NodeSet.refreshAll us new, x.eqv f = true ∧ LivesTo t x.expiry := by
  induction new generalizing us with
  | nil => exact absurd hf List.not_mem_nil
  | cons n new ih =>
    rcases List.mem_cons.1 hf with rfl | hf
    · obtain ⟨hkeys, hlives⟩ := hnew f List.mem_cons_self
      exact exists_of_refreshAll new (exists_of_refresh_self hkeys hlives us)
    · exact ih (fun f hf => hnew f (List.mem_cons_of_mem _ hf)) hf

/-- An update makes a stored document hold the one that is written. -/
theorem holds_of_update {t : Instant} {w x u : Node} (hstamp : w.Stamped (some t))
    (hw : w.Everywhere HasDistinctKeys) (h : x.update w = .ok u) : Holds t w u := by
  induction w using Node.induct generalizing x u with
  | dict e t' ps ih =>
    have hs := stamped_iff.1 hstamp
    have hc := (everywhere_iff.1 hw).2
    have hroot := (updated_of_update h).root (t := t)
    refine ⟨hroot.2.2.2 ⟨t, hs.1, Int.le_refl t⟩, ?_⟩
    cases updated_of_update h with
    | dict e' _ _ _ hrs =>
      refine ⟨_, _, _, rfl, holdsEntries_iff.2 fun p hp => ?_⟩
      refine exists_of_updateEntries_self (fun q hq => ?_) hrs hp
      have hqs := hs.2 _ (List.mem_map_of_mem hq)
      have hqw := hc _ (snd_mem_entryNodes hq)
      exact ⟨hc _ (fst_mem_entryNodes hq), holds_self hqs hqw, fun old r => (ih q hq).2 hqs hqw⟩
  | set e t' fs ih =>
    have hs := stamped_iff.1 hstamp
    have hc := (everywhere_iff.1 hw).2
    have hroot := (updated_of_update h).root (t := t)
    refine ⟨hroot.2.2.2 ⟨t, hs.1, Int.le_refl t⟩, ?_⟩
    cases updated_of_update h with
    | set e' _ _ us _ =>
      refine ⟨_, _, _, rfl, fun f hf => exists_of_refreshAll_self (fun g hg => ?_) hf⟩
      exact ⟨hc g hg, t, (stamped_iff.1 (hs.2 g hg)).1, Int.le_refl t⟩
  | _ =>
    have hroot := (updated_of_update h).root (t := t)
    exact ⟨hroot.2.2.2 ⟨t, (stamped_iff.1 hstamp).1, Int.le_refl t⟩,
      hroot.1.trans hroot.2.1.symm⟩

/-! ## Sweeps -/

/-- What is to become of the elements of a set: those written, those stored after the write, those
left. -/
abbrev ElementsRule := List Node → List Node → List Node → Prop

mutual

/-- What is left of a written document: `w` was written, `u` stands in the store after the write,
and `r` is left of it by the sweep at `now`. Each written pair of a dict stands under an equal key
and is left there, with what is left of its value; other values are as the write gave them; for
elements of sets there is a rule. -/
def Kept (now : Instant) (rule : ElementsRule) : Node → Node → Node → Prop
  | .dict _ _ ps, u, r => ∃ e t us rs, u = .dict e t us ∧ r = .dict e t rs ∧
    KeptEntries now rule ps us rs
  | .set _ _ fs, u, r => ∃ e t us rs, u = .set e t us ∧ r = .set e t rs ∧ rule fs us rs
  | _, u, r => r = u
termination_by structural w => w

/-- Each written pair is left. -/
def KeptEntries (now : Instant) (rule : ElementsRule) :
    List (Node × Node) → List (Node × Node) → List (Node × Node) → Prop
  | [], _, _ => True
  | (k, v) :: ps, us, rs =>
    (∃ q ∈ us, q.1.eqv k = true ∧ ∃ y, (q.2.sweep now).1 = some y ∧ (q.1, y) ∈ rs ∧
      Kept now rule v q.2 y) ∧ KeptEntries now rule ps us rs
termination_by structural ps => ps

end

theorem keptEntries_iff {now : Instant} {rule : ElementsRule} {ps us rs : List (Node × Node)} :
    KeptEntries now rule ps us rs ↔ ∀ p ∈ ps, ∃ q ∈ us, q.1.eqv p.1 = true ∧
      ∃ y, (q.2.sweep now).1 = some y ∧ (q.1, y) ∈ rs ∧ Kept now rule p.2 q.2 y := by
  induction ps with
  | nil => simp [KeptEntries]
  | cons p ps ih =>
    obtain ⟨k, v⟩ := p
    rw [KeptEntries, ih, List.forall_mem_cons]

/-- For each written element an equal one of the store is left, though perhaps less of it. -/
def ElementsStay (now t : Instant) : ElementsRule := fun fs us rs =>
  ∀ f ∈ fs, ∃ x ∈ us, x.eqv f = true ∧ LivesTo t x.expiry ∧ ∃ y ∈ rs, (x.sweep now).1 = some y

/-- Each written element is left, equal to the one written. -/
def ElementsEqual : ElementsRule := fun fs _ rs => ∀ f ∈ fs, ∃ y ∈ rs, y.eqv f = true

/-- A written element is left, equal to the one written, if it stands in the set as it was written,
as one does that was not there before; or if it is neither a dict with pairs nor a set with
elements; or if nothing is taken out of a stored element that is equal to it. -/
def ElementsLast (now t : Instant) : ElementsRule := fun fs us rs => ∀ f ∈ fs,
  (f ∈ us ∨ f.parts = [] ∨
    ∃ x ∈ us, x.eqv f = true ∧ LivesTo t x.expiry ∧ (x.sweep now).2 = 0) →
  ∃ y ∈ rs, y.eqv f = true

theorem sweep_dict {t now : Instant} {e : Expiry} {t' : String} {us : List (Node × Node)}
    (h : LivesTo t e) (hnow : now < t) :
    ((dict e t' us).sweep now).1 = some (dict e t' (sweepEntries now us).1) := by
  rw [sweep]
  simp only [LivesTo.isSpent h hnow]
  rfl

theorem sweep_set {t now : Instant} {e : Expiry} {t' : String} {us : List Node}
    (h : LivesTo t e) (hnow : now < t) :
    ((set e t' us).sweep now).1 = some (set e t' (sweepAll now us).1) := by
  rw [sweep]
  simp only [LivesTo.isSpent h hnow]
  rfl

/-- Out of the elements that live until `t` a sweep takes nothing. -/
def IsUndisturbed (now t : Instant) (u : Node) : Prop :=
  ∀ e t' us, (set e t' us).Reached u → ∀ x ∈ us, LivesTo t x.expiry → (x.sweep now).2 = 0

/-- What lives on is left by a sweep. -/
theorem exists_sweep {t now : Instant} {n : Node} (h : LivesTo t n.expiry) (hnow : now < t) :
    ∃ m, (n.sweep now).1 = some m := by
  cases n with
  | dict e t' ps => exact ⟨_, sweep_dict h hnow⟩
  | set e t' es => exact ⟨_, sweep_set h hnow⟩
  | _ => exact ⟨_, if_neg (by rw [h.isExpired hnow]; exact Bool.false_ne_true)⟩

theorem sweep_of_not_container {t now : Instant} {n : Node} (hn : n.isContainer = false)
    (h : LivesTo t n.expiry) (hnow : now < t) : (n.sweep now).1 = some n := by
  obtain ⟨m, hm⟩ := exists_sweep h hnow
  cases left_of_sweep hm with
  | dict e t' ps => cases hn
  | set e t' es => cases hn
  | whole n hn => exact hm

theorem mem_sweepEntries_of_mem {now : Instant} {us : List (Node × Node)} {q : Node × Node}
    (hq : q ∈ us) {y : Node} (hy : (q.2.sweep now).1 = some y) :
    (q.1, y) ∈ (sweepEntries now us).1 := by
  rw [sweepEntries_fst, List.mem_filterMap]
  exact ⟨q, hq, by rw [hy]; rfl⟩

theorem mem_sweepAll_of_mem {now : Instant} {us : List Node} {x y : Node} (hx : x ∈ us)
    (hy : (x.sweep now).1 = some y) : y ∈ (sweepAll now us).1 := by
  rw [sweepAll_fst, List.mem_filterMap]
  exact ⟨x, hx, hy⟩

/-- A sweep takes nothing out of a node without parts. -/
theorem sweep_of_no_parts {now : Instant} {n : Node} (h : n.parts = []) :
    (n.sweep now).2 = 0 := by
  cases n with
  | dict e t ps =>
    obtain rfl := List.map_eq_nil_iff.1 h
    rfl
  | set e t es =>
    obtain rfl : es = [] := h
    rfl
  | _ => rfl

/-- Equal nodes have as many parts. -/
theorem length_parts_of_eqv {a b : Node} (h : a.eqv b = true) :
    a.parts.length = b.parts.length := by
  unfold eqv at h
  cases a with
  | dict e t ps =>
    cases b <;> simp_all [disassemble, same, parts, disassembleEntries_eq_map]
  | set e t es =>
    cases b <;> simp_all [disassemble, same, parts, disassembleAll_eq_map]
  | _ => cases b <;> first | rfl | exact absurd h Bool.false_ne_true

/-- Sets without containers are not disturbed. -/
theorem IsUndisturbed.of_flat {now t : Instant} {u : Node} (h : u.Everywhere IsFlat) :
    u.IsUndisturbed now t := by
  intro e t' us hus x hx _
  have hflat : IsFlat (set e t' us) := h _ hus.within
  exact sweep_of_no_parts (hflat x hx)

/-- A sweep before `t` leaves what a stored document holds until `t`. -/
theorem kept_of_holds {t now : Instant} {w u : Node} (h : Holds t w u) (hnow : now < t) :
    ∃ r, (u.sweep now).1 = some r ∧ Kept now (ElementsStay now t) w u r := by
  induction w using Node.induct generalizing u with
  | dict e t' ps ih =>
    obtain ⟨hlives, e', t'', us, rfl, hus⟩ := h
    refine ⟨_, sweep_dict hlives hnow, _, _, _, _, rfl, rfl, keptEntries_iff.2 fun p hp => ?_⟩
    obtain ⟨q, hq, hqk, hqv⟩ := holdsEntries_iff.1 hus p hp
    obtain ⟨y, hy, hkept⟩ := (ih p hp).2 hqv
    exact ⟨q, hq, hqk, y, hy, mem_sweepEntries_of_mem hq hy, hkept⟩
  | set e t' fs ih =>
    obtain ⟨hlives, e', t'', us, rfl, hus⟩ := h
    refine ⟨_, sweep_set hlives hnow, _, _, _, _, rfl, rfl, fun f hf => ?_⟩
    obtain ⟨x, hx, hxf, hxlives⟩ := hus f hf
    obtain ⟨y, hy⟩ := exists_sweep hxlives hnow
    exact ⟨x, hx, hxf, hxlives, y, mem_sweepAll_of_mem hx hy, hy⟩
  | _ => exact ⟨u, sweep_of_not_container h.2 h.1 hnow, rfl⟩

/-- What is left of an element that lives on, if nothing is taken out of it, is equal to the one
that was written. -/
theorem exists_left_of_zero {t now : Instant} {us : List Node} {x f : Node} (hx : x ∈ us)
    (hxf : x.eqv f = true) (hlives : LivesTo t x.expiry) (hnow : now < t)
    (hzero : (x.sweep now).2 = 0) : ∃ y ∈ (sweepAll now us).1, y.eqv f = true := by
  obtain ⟨y, hy⟩ := exists_sweep hlives hnow
  obtain rfl := eq_of_sweep_zero hzero hy
  exact ⟨y, mem_sweepAll_of_mem hx hy, hxf⟩

/-- The rule of what is left whole follows, for elements that were written to live until `t`, from
what is stored of them. -/
theorem elementsLast_of_stay {t now : Instant} {fs us : List Node} (hnow : now < t)
    (hfs : ∀ f ∈ fs, f.Stamped (some t) ∧ f.eqv f = true)
    (h : ElementsStay now t fs us (sweepAll now us).1) :
    ElementsLast now t fs us (sweepAll now us).1 := by
  intro f hf hlasts
  rcases hlasts with hadded | hparts | ⟨x, hx, hxf, hlives, hzero⟩
  · obtain ⟨hstamp, hself⟩ := hfs f hf
    have hlives : LivesTo t f.expiry := ⟨t, (stamped_iff.1 hstamp).1, Int.le_refl t⟩
    refine exists_left_of_zero hadded hself hlives hnow ?_
    rw [sweep_of_stamped hstamp, if_neg]
    rw [LivesTo.isExpired ⟨t, rfl, Int.le_refl t⟩ hnow]
    exact Bool.false_ne_true
  · obtain ⟨x, hx, hxf, hlives, _⟩ := h f hf
    refine exists_left_of_zero hx hxf hlives hnow (sweep_of_no_parts ?_)
    exact List.eq_nil_of_length_eq_zero ((length_parts_of_eqv hxf).trans (by rw [hparts]; rfl))
  · exact exists_left_of_zero hx hxf hlives hnow hzero

/-- One rule in place of another that it follows from wherever the sweep comes to a set. -/
theorem Kept.imp {now : Instant} {rule rule' : ElementsRule} {w u r : Node}
    (hrule : ∀ e t us e' t' fs, (set e t us).Reached u → (set e' t' fs).Reached w →
      rule fs us (sweepAll now us).1 → rule' fs us (sweepAll now us).1)
    (hr : (u.sweep now).1 = some r) (h : Kept now rule w u r) : Kept now rule' w u r := by
  induction w using Node.induct generalizing u r with
  | dict e t ps ih =>
    obtain ⟨e', t', us, rs, rfl, rfl, hrs⟩ := h
    refine ⟨e', t', us, rs, rfl, rfl, keptEntries_iff.2 fun p hp => ?_⟩
    obtain ⟨q, hq, hqk, y, hy, hmem, hkept⟩ := keptEntries_iff.1 hrs p hp
    refine ⟨q, hq, hqk, y, hy, hmem, (ih p hp).2 (fun e t us e' t' fs hu hw => ?_) hy hkept⟩
    exact hrule e t us e' t' fs (hu.of_mem (List.mem_map_of_mem hq))
      (hw.of_mem (List.mem_map_of_mem hp))
  | set e t fs ih =>
    obtain ⟨e', t', us, rs, rfl, rfl, hrs⟩ := h
    refine ⟨e', t', us, rs, rfl, rfl, ?_⟩
    cases left_of_sweep hr with
    | set => exact hrule e' t' us e t fs (.refl _) (.refl _) hrs
    | whole n hn => cases hn
  | _ => exact h

end Node

/-- A write whose nodes are to live until `t`, directly followed by a sweep before `t`. Each pair of
the assembled document, at every depth reached through the values of dicts, is left with the value
that the write gave it but for expired parts, and so is for each element of a set the stored one
that is equal to it. An element is left equal to the written one if it was added as it is, has no
parts, or has nothing taken out of it; and so are all if the sweep takes nothing out of the elements
that live until `t`. -/
theorem written_survives {s s' : Store}
    (hg : s.grammar.Upholds fun ctx n m =>
      m.Stamped ctx.expiry ∧ (n.Everywhere HasDistinctKeys → m.Everywhere HasDistinctKeys))
    {now later t : Instant} {writer : PeerId} {key : String} {doc : Node} {options : WriteOptions}
    (hdoc : doc.Everywhere HasDistinctKeys) (h : (s.update now writer key doc options).1 = .ok s')
    (ht : (s.writeContext now writer options).expiry = some t) (hlater : later < t) :
    ∃ w u r,
      (s.grammar.assemble (s.writeContext now writer options) doc).outcome.1 = .ok w ∧
      s'.slot? key writer = some u ∧ (s'.collect later).slot? key writer = some r ∧
      Kept later (ElementsStay later t) w u r ∧ Kept later (ElementsLast later t) w u r ∧
      (u.IsUndisturbed later t → Kept later ElementsEqual w u r) := by
  obtain ⟨w, u, hw, _, hu, rfl⟩ := Store.update_eq_ok h
  have hstamp : w.Stamped (some t) := by
    rw [← ht]
    exact stamped_of_yields (fun rule hrule ctx n m hm => (hg rule hrule ctx n m hm).1)
      (.of_outcome hw)
  have hkeys : w.Everywhere HasDistinctKeys :=
    distinctKeys_of_yields (fun rule hrule ctx n m hm => (hg rule hrule ctx n m hm).2) hdoc
      (.of_outcome hw)
  have hholds : Holds t w u := by
    unfold Store.folded at hu
    split at hu
    · exact holds_of_update hstamp hkeys hu
    · cases hu
      exact holds_self hstamp hkeys
  obtain ⟨r, hr, hkept⟩ := kept_of_holds hholds hlater
  have hslot : (s.put key writer u).slot? key writer = some u := by
    rw [Store.slot?_put, if_pos ⟨rfl, rfl⟩]
  refine ⟨w, u, r, hw, hslot, ?_, hkept, ?_, fun hwhole => ?_⟩
  · rw [Store.slot?_collect, hslot]
    exact hr
  · refine hkept.imp (fun e t' us e' t'' fs _ hfs => ?_) hr
    have hall : (set e' t'' fs).Everywhere HasDistinctKeys :=
      fun v hv => hkeys v (Relation.ReflTransGen.trans hfs.within hv)
    refine elementsLast_of_stay hlater fun f hf => ⟨?_, eqv_refl (hall.child hf)⟩
    exact fun v hv => hstamp v (Relation.ReflTransGen.trans hfs (hv.of_mem hf))
  · refine hkept.imp (fun e t' us _ _ fs hreached _ hrule f hf => ?_) hr
    obtain ⟨x, hx, hxf, hlives, y, hy, hxy⟩ := hrule f hf
    obtain rfl := eq_of_sweep_zero (hwhole e t' us hreached x hx hlives) hxy
    exact ⟨y, hy, hxf⟩

/-- A store in which two texts in a set live until 100. -/
def textsStored : Store :=
  (Store.empty (standard.withProbe fun _ _ => true) {}).run
    [.write 0 ⟨"writerP"⟩ "k" textsInSet (.lasting 100)]

/-- Written again to live until 1000 and swept at 500, both are left. -/
theorem texts_survive : ∃ w u r,
    (textsStored.grammar.assemble { expiry := some 1000, writer := some ⟨"writerP"⟩ }
      textsInSet).outcome.1 = .ok w ∧
    (textsStored.step (.write 0 ⟨"writerP"⟩ "k" textsInSet (.lasting 1000))).slot? "k"
      ⟨"writerP"⟩ = some u ∧
    ((textsStored.step (.write 0 ⟨"writerP"⟩ "k" textsInSet (.lasting 1000))).collect 500).slot?
      "k" ⟨"writerP"⟩ = some r ∧ Kept 500 ElementsEqual w u r := by
  have hg : textsStored.grammar.IsStock := isStock_standard.withProbe _
  have hok : (textsStored.update 0 ⟨"writerP"⟩ "k" textsInSet (.lasting 1000)).1 =
      .ok (textsStored.step (.write 0 ⟨"writerP"⟩ "k" textsInSet (.lasting 1000))) := rfl
  obtain ⟨w, u, r, hw, hu, hr, _, _, hequal⟩ :=
    written_survives (hg.upholds _) (WellFormed.distinctKeys (by decide)) hok rfl
      (show (500 : Instant) < 1000 by decide)
  refine ⟨w, u, r, hw, hu, hr, hequal (.of_flat ?_)⟩
  obtain rfl : u = .dict (some 1000) "" [((ofString "s").withExpiry (some 1000),
      .set (some 1000) "" [(ofString "a").withExpiry (some 1000),
        (ofString "b").withExpiry (some 1000)])] := Option.some.inj (hu.symm.trans rfl)
  simp [ofString, withExpiry, IsFlat, parts]

/-- A dict with a set of one dict. -/
def dictInSet : Node :=
  .dict none "" [(ofString "s", .set none "" [.dict none "" [(ofString "a", .leaf none (.int 1))]])]

/-- Written to live until 100 and again to live until 1000, the dict in the set is refreshed but
nothing in it; a sweep in between empties it. -/
theorem written_not_survives :
    ¬ ∀ (steps : List Store.Step) (now later t : Instant) (writer : PeerId) (key : String)
      (doc : Node) (options : WriteOptions) (s' : Store), (∀ a ∈ steps, a.Writes WellFormed) →
      doc.WellFormed →
      (((Store.empty standard {}).run steps).update now writer key doc options).1 = .ok s' →
      (((Store.empty standard {}).run steps).writeContext now writer options).expiry = some t →
      later < t → ∃ w u r,
        (standard.assemble (((Store.empty standard {}).run steps).writeContext now writer options)
          doc).outcome.1 = .ok w ∧
        s'.slot? key writer = some u ∧ (s'.collect later).slot? key writer = some r ∧
        Kept later ElementsEqual w u r := by
  intro h
  obtain ⟨w, u, r, hw, hu, hr, hkept⟩ := h [.write 0 ⟨"writerP"⟩ "k" dictInSet (.lasting 100)]
    0 500 1000 ⟨"writerP"⟩ "k" dictInSet (.lasting 1000) _ (by decide) (by decide) rfl rfl
    (by decide)
  have hw : Except.ok (ε := Error) (.dict (some 1000) "" [((ofString "s").withExpiry (some 1000),
      .set (some 1000) "" [.dict (some 1000) ""
        [((ofString "a").withExpiry (some 1000), .leaf (some 1000) (.int 1))]])]) = .ok w := hw
  have hr : some (.dict (some 1000) "" [((ofString "s").withExpiry (some 1000),
      .set (some 1000) "" [.dict (some 1000) "" []])]) = some r := hr
  cases hw
  cases hr
  obtain ⟨_, _, us, rs, _, hrs, hentries⟩ := hkept
  cases hrs
  obtain ⟨⟨k, v⟩, _, _, y, _, hy, hset⟩ := keptEntries_iff.1 hentries _ List.mem_cons_self
  cases List.mem_singleton.1 hy
  obtain ⟨_, _, us, rs, _, hrs, hequal⟩ := hset
  cases hrs
  obtain ⟨z, hz, hzf⟩ := hequal _ List.mem_cons_self
  cases List.mem_singleton.1 hz
  revert hzf
  decide

end PeerRecords
