import PeerRecords.Proofs.Merge.Basic
import PeerRecords.Proofs.Lifetimes

/-
  What two replicas keep alive in their join.
  A path leads through the values of dicts and the elements of sets by the names that they have
  before a sweep (`follow`), and `Remains` says that a literal, predicate or smart node is still at
  its end afterwards; that is so just if it has not expired (`staysAt_iff`). What is joined at a key
  lives as long as the longer-lived side, but an element that both sides have is taken from the left
  side as it stands, with all that is in it (`Shadowed`). So the join keeps what the left side
  keeps, and of the right side what is not shadowed (`staysAt_join_iff`).
-/

namespace PeerRecords

open Node

namespace Node

/-! ## Paths by name -/

/-- A step into a document: to the value at a key, or to the element that is equal to a node. -/
inductive Hop where
  | value (key : Node)
  | element (node : Node)

/-- The key or element that a step names. -/
def Hop.name : Hop → Node
  | value key => key
  | element node => node

/-- What stands at the end of a path. -/
def follow : List Hop → Node → Option Node
  | [], n => some n
  | .value k :: path, .dict _ _ ps => (Entries.at? k ps).bind (follow path)
  | .element x :: path, .set _ _ es => (es.find? (·.eqv x)).bind (follow path)
  | _, _ => none

/-- A literal, predicate or smart node stands at the end of a path, and still does so in what a
sweep leaves, each container on the way being swept. -/
inductive Remains (now : Instant) : List Hop → Node → Node → Prop where
  | here {n : Node} (hn : n.isContainer = false) (h : (n.sweep now).1 = some n) :
    Remains now [] n n
  | value {k v w : Node} {e : Expiry} {t : String} {ps rs : List (Node × Node)} {path : List Hop}
      (h : ((dict e t ps).sweep now).1 = some (dict e t rs)) (hv : Entries.at? k ps = some v)
      (hw : Entries.at? k rs = some w) (hrest : Remains now path v w) :
    Remains now (.value k :: path) (dict e t ps) (dict e t rs)
  | element {x y z : Node} {e : Expiry} {t : String} {es fs : List Node} {path : List Hop}
      (h : ((set e t es).sweep now).1 = some (set e t fs)) (hy : es.find? (·.eqv x) = some y)
      (hz : z ∈ fs) (hrest : Remains now path y z) :
    Remains now (.element x :: path) (set e t es) (set e t fs)

/-- What stands at the end of a path is still there after a sweep. -/
def StaysAt (now : Instant) (path : List Hop) (n : Node) : Prop :=
  ∃ m, (n.sweep now).1 = some m ∧ Remains now path n m

/-- A literal, predicate or smart node that has not expired stands at the end of a path. -/
def LivesAt (now : Instant) (path : List Hop) (n : Node) : Prop :=
  ∃ c, n.follow path = some c ∧ c.isContainer = false ∧ c.expiry.isExpired now = false

variable {now : Instant}

theorem livesAt_nil {n : Node} :
    LivesAt now [] n ↔ n.isContainer = false ∧ n.expiry.isExpired now = false := by
  simp [LivesAt, follow]

theorem livesAt_value {k : Node} {path : List Hop} {e : Expiry} {t : String}
    {ps : List (Node × Node)} : LivesAt now (.value k :: path) (dict e t ps) ↔
      ∃ v, Entries.at? k ps = some v ∧ LivesAt now path v := by
  cases h : Entries.at? k ps <;> simp [LivesAt, follow, h]

theorem livesAt_element {x : Node} {path : List Hop} {e : Expiry} {t : String} {es : List Node} :
    LivesAt now (.element x :: path) (set e t es) ↔
      ∃ y, es.find? (·.eqv x) = some y ∧ LivesAt now path y := by
  cases h : es.find? (·.eqv x) <;> simp [LivesAt, follow, h]

theorem at?_sweepEntries {k : Node} (hk : k.WellFormed) {ps : List (Node × Node)}
    (hps : Entries.Keyed ps) : Entries.at? k (sweepEntries now ps).1 =
      (Entries.at? k ps).bind fun v => (v.sweep now).1 := by
  rw [sweepEntries_fst]
  induction ps with
  | nil => rfl
  | cons p ps ih =>
    obtain ⟨_, hrest⟩ := Entries.keyed_cons_iff.1 hps
    rw [List.filterMap_cons, Entries.at?_cons]
    cases hpk : p.1.eqv k with
    | true =>
      cases hsweep : (p.2.sweep now).1 with
      | some w => simp [Entries.at?_cons, hpk, hsweep]
      | none =>
        -- the entry goes, and no other has its key
        have hnone : Entries.at? k ps = none :=
          Entries.at?_eq_none_iff.2 (hps.forall_tail_ne hk hpk)
        simp [hsweep, ih hrest, hnone]
    | false =>
      cases hsweep : (p.2.sweep now).1 <;> simp [Entries.at?_cons, hpk, ih hrest]

theorem sweep_of_isContainer_eq_false {n : Node} (h : n.isContainer = false) :
    (n.sweep now).1 = if n.expiry.isExpired now then none else some n := by
  cases n with
  | dict e t ps => cases h
  | set e t es => cases h
  | _ => rfl

theorem Remains.livesAt {path : List Hop} {n m : Node} (h : Remains now path n m) :
    LivesAt now path n := by
  induction h with
  | @here n hn h =>
    refine ⟨n, rfl, hn, ?_⟩
    rw [sweep_of_isContainer_eq_false hn] at h
    cases hexpired : n.expiry.isExpired now with
    | false => rfl
    | true => simp [hexpired] at h
  | value _ hv _ _ ih =>
    obtain ⟨c, hc, hlives⟩ := ih
    exact ⟨c, by rw [follow, hv]; exact hc, hlives⟩
  | element _ hy _ _ ih =>
    obtain ⟨c, hc, hlives⟩ := ih
    exact ⟨c, by rw [follow, hy]; exact hc, hlives⟩

theorem LivesAt.staysAt {path : List Hop} {n : Node} (h : LivesAt now path n)
    (hpath : ∀ s ∈ path, s.name.WellFormed) (hn : n.WellFormed) : StaysAt now path n := by
  obtain ⟨c, hc, hflat, hlives⟩ := h
  induction path generalizing n with
  | nil =>
    cases hc
    have hsweep : (c.sweep now).1 = some c := by
      rw [sweep_of_isContainer_eq_false hflat, hlives]
      rfl
    exact ⟨c, hsweep, .here hflat hsweep⟩
  | cons s path ih =>
    obtain ⟨hs, hrestwf⟩ := List.forall_mem_cons.1 hpath
    cases s with
    | value k =>
      cases n with
      | dict e t ps =>
        obtain ⟨v, hv, hc⟩ := Option.bind_eq_some_iff.1 hc
        obtain ⟨p, hp, _, rfl⟩ := Entries.mem_of_at? hv
        obtain ⟨w, hw, hrest⟩ := ih hrestwf (hn.child (snd_mem_entryNodes hp)) hc
        have hk : k.WellFormed := hs
        have hkeyed : Entries.Keyed ps := hn.keyed
        have hat : Entries.at? k (sweepEntries now ps).1 = some w := by
          rw [at?_sweepEntries hk hkeyed, hv]
          exact hw
        obtain ⟨q, hq, _⟩ := Entries.mem_of_at? hat
        have hsweep := sweep_dict_of_mem (e := e) (t := t) hq
        exact ⟨_, hsweep, .value hsweep hv hat hrest⟩
      | _ => cases hc
    | element x =>
      cases n with
      | set e t es =>
        obtain ⟨y, hy, hc⟩ := Option.bind_eq_some_iff.1 hc
        have hmem := List.mem_of_find?_eq_some hy
        obtain ⟨z, hz, hrest⟩ := ih hrestwf (hn.child hmem) hc
        have hzmem := mem_sweepAll_of_mem hmem hz
        have hsweep := sweep_set_of_mem (e := e) (t := t) hzmem
        exact ⟨_, hsweep, .element hsweep hy hzmem hrest⟩
      | _ => cases hc

/-- A literal, predicate or smart node stays where it stands just if it has not expired. -/
theorem staysAt_iff {path : List Hop} (hpath : ∀ s ∈ path, s.name.WellFormed) {n : Node}
    (hn : n.WellFormed) : StaysAt now path n ↔ LivesAt now path n :=
  ⟨fun ⟨_, _, h⟩ => h.livesAt, fun h => h.staysAt hpath hn⟩

/-! ## Joins -/

/-- A path that two documents share goes through an element of a set that the first has as well. -/
inductive Shadowed : List Hop → Node → Node → Prop where
  | element {x : Node} {e e' : Expiry} {t t' : String} {es fs : List Node} {path : List Hop}
      (h : x.isIn es = true) : Shadowed (.element x :: path) (set e t es) (set e' t' fs)
  | value {k v w : Node} {e e' : Expiry} {t t' : String} {ps qs : List (Node × Node)}
      {path : List Hop} (hv : Entries.at? k ps = some v) (hw : Entries.at? k qs = some w)
      (h : Shadowed path v w) : Shadowed (.value k :: path) (dict e t ps) (dict e' t' qs)

theorem shadowed_value {k : Node} {path : List Hop} {e e' : Expiry} {t t' : String}
    {ps qs : List (Node × Node)} :
    Shadowed (.value k :: path) (dict e t ps) (dict e' t' qs) ↔ ∃ v w,
      Entries.at? k ps = some v ∧ Entries.at? k qs = some w ∧ Shadowed path v w := by
  constructor
  · rintro (_ | ⟨hv, hw, h⟩)
    exact ⟨_, _, hv, hw, h⟩
  · rintro ⟨v, w, hv, hw, h⟩
    exact .value hv hw h

theorem shadowed_element {x : Node} {path : List Hop} {e e' : Expiry} {t t' : String}
    {es fs : List Node} :
    Shadowed (.element x :: path) (set e t es) (set e' t' fs) ↔ x.isIn es = true := by
  constructor
  · rintro ⟨h⟩
    exact h
  · exact fun h => .element h

theorem find?_addAll {x : Node} (hx : x.WellFormed) {ns ms : List Node}
    (hns : ∀ n ∈ ns, n.WellFormed) (hms : ∀ m ∈ ms, m.WellFormed) :
    (NodeSet.addAll ns ms).find? (·.eqv x) = (ns.find? (·.eqv x)).or (ms.find? (·.eqv x)) := by
  induction ms generalizing ns with
  | nil => exact (Option.or_none).symm
  | cons m ms ih =>
    obtain ⟨hm, hms⟩ := List.forall_mem_cons.1 hms
    have hcons : (m :: ms).find? (·.eqv x) = ([m].find? (·.eqv x)).or (ms.find? (·.eqv x)) := by
      rw [← List.find?_append, List.singleton_append]
    rw [NodeSet.addAll_cons]
    cases hin : m.isIn ns with
    | false =>
      rw [NodeSet.addTo_of_not_isIn hin,
        ih (List.forall_mem_append.2 ⟨hns, List.forall_mem_singleton.2 hm⟩) hms,
        List.find?_append, Option.or_assoc, hcons]
    | true =>
      rw [NodeSet.addTo_of_isIn hin, ih hns hms, List.find?_cons]
      cases hmx : m.eqv x with
      | false => rfl
      | true =>
        -- what is equal to `m` is equal to `x`, so the first list has it already
        obtain ⟨n, hn, hnm⟩ := List.any_eq_true.1 hin
        have hsome : (ns.find? (·.eqv x)).isSome = true :=
          List.find?_isSome.2 ⟨n, hn, eqv_trans (hns n hn) hm hx hnm hmx⟩
        obtain ⟨y, hy⟩ := Option.isSome_iff_exists.1 hsome
        rw [hy]
        rfl

theorem Joined.expiry_eq {a b r : Node} (h : Joined a b r) :
    r.expiry = Expiry.combine a.expiry b.expiry := by
  cases h <;> rfl

theorem Joined.isContainer_eq {a b r : Node} (h : Joined a b r) :
    r.isContainer = a.isContainer ∧ r.isContainer = b.isContainer := by
  cases h <;> exact ⟨rfl, rfl⟩

/-- Of two nodes that carry expirations the later one counts for both. -/
theorem isExpired_combine {e e' : Expiry} (he : e.isSome = true) (he' : e'.isSome = true) :
    (Expiry.combine e e').isExpired now = false ↔
      e.isExpired now = false ∨ e'.isExpired now = false := by
  obtain ⟨s, rfl⟩ := Option.isSome_iff_exists.1 he
  obtain ⟨t, rfl⟩ := Option.isSome_iff_exists.1 he'
  simp only [Expiry.combine, Expiry.isExpired, decide_eq_false_iff_not, not_le]
  constructor
  · intro h
    obtain hst | hts := le_total s t
    · exact .inr (max_eq_right hst ▸ h)
    · exact .inl (max_eq_left hts ▸ h)
  · rintro (h | h)
    · exact h.trans_le (le_max_left s t)
    · exact h.trans_le (le_max_right s t)

section

variable {path : List Hop} {t : String}

/-- At the end of a path through a key of two dicts. -/
theorem livesAt_join_value {k : Node} (hk : k.WellFormed) (e e' e'' : Expiry)
    {ps qs rs : List (Node × Node)} (hps : Entries.Keyed ps) (hqs : Entries.Keyed qs)
    (h : joinEntries ps qs = .ok rs)
    (hrest : ∀ v w x, Entries.at? k ps = some v → Entries.at? k qs = some w → v.join w = .ok x →
      (LivesAt now path x ↔ LivesAt now path v ∨ LivesAt now path w ∧ ¬ Shadowed path v w)) :
    LivesAt now (.value k :: path) (dict e'' t rs) ↔ LivesAt now (.value k :: path) (dict e t ps) ∨
      LivesAt now (.value k :: path) (dict e' t qs) ∧
        ¬ Shadowed (.value k :: path) (dict e t ps) (dict e' t qs) := by
  have hat := joinAt_joinEntries hk hps hqs h
  rw [livesAt_value, livesAt_value, livesAt_value, shadowed_value]
  cases hv : Entries.at? k ps with
  | none =>
    rw [hv] at hat
    rw [← Except.ok.inj hat]
    simp
  | some v =>
    cases hw : Entries.at? k qs with
    | none =>
      rw [hv, hw] at hat
      rw [← Except.ok.inj hat]
      simp
    | some w =>
      rw [hv, hw] at hat
      obtain ⟨x, hx, hat⟩ := bind_eq_ok.1 hat
      rw [← Except.ok.inj hat]
      simpa using hrest v w x hv hw hx

/-- At the end of a path through an element of two sets. -/
theorem livesAt_join_element {x : Node} (hx : x.WellFormed) (e e' e'' : Expiry)
    {es fs : List Node} (hes : ∀ n ∈ es, n.WellFormed) (hfs : ∀ n ∈ fs, n.WellFormed) :
    LivesAt now (.element x :: path) (set e'' t (NodeSet.addAll es fs)) ↔
      LivesAt now (.element x :: path) (set e t es) ∨
        LivesAt now (.element x :: path) (set e' t fs) ∧
          ¬ Shadowed (.element x :: path) (set e t es) (set e' t fs) := by
  rw [livesAt_element, livesAt_element, livesAt_element, shadowed_element, find?_addAll hx hes hfs]
  cases hin : x.isIn es with
  | true =>
    obtain ⟨y, hy⟩ := Option.isSome_iff_exists.1 (List.find?_isSome.2 (List.any_eq_true.1 hin))
    rw [hy]
    simp
  | false =>
    have hnone : es.find? (·.eqv x) = none := by
      rw [List.find?_eq_none]
      exact fun y hy => by simp [isIn_eq_false.1 hin y hy]
    rw [hnone]
    simp

end

/-- A join keeps alive what its left side does, and of its right side what is not shadowed. -/
theorem livesAt_join_iff {path : List Hop} (hpath : ∀ s ∈ path, s.name.WellFormed)
    {a b r : Node} (ha : a.WellFormed) (hb : b.WellFormed)
    (hae : a.Everywhere fun n => n.expiry.isSome = true)
    (hbe : b.Everywhere fun n => n.expiry.isSome = true) (h : a.join b = .ok r) :
    LivesAt now path r ↔ LivesAt now path a ∨ LivesAt now path b ∧ ¬ Shadowed path a b := by
  induction path generalizing a b r with
  | nil =>
    have hr := joined_iff.1 h
    have hunshadowed : ¬ Shadowed [] a b := fun hshadowed => by cases hshadowed
    rw [livesAt_nil, livesAt_nil, livesAt_nil, ← hr.isContainer_eq.1, ← hr.isContainer_eq.2,
      hr.expiry_eq, isExpired_combine hae.self hbe.self, and_or_left, and_iff_left hunshadowed]
  | cons s path ih =>
    obtain ⟨hs, hrest⟩ := List.forall_mem_cons.1 hpath
    have hnowhere : a.follow (s :: path) = none → b.follow (s :: path) = none →
        r.follow (s :: path) = none →
        (LivesAt now (s :: path) r ↔ LivesAt now (s :: path) a ∨
          LivesAt now (s :: path) b ∧ ¬ Shadowed (s :: path) a b) := by
      intro ha hb hr
      simp [LivesAt, ha, hb, hr]
    cases s with
    | value k =>
      cases joined_iff.1 h with
      | @dict e e' t ps qs rs hrs =>
        refine livesAt_join_value hs e e' _ ha.keyed hb.keyed hrs fun v w x hv hw hx => ?_
        obtain ⟨p, hp, _, rfl⟩ := Entries.mem_of_at? hv
        obtain ⟨q, hq, _, rfl⟩ := Entries.mem_of_at? hw
        exact ih hrest (ha.child (snd_mem_entryNodes hp)) (hb.child (snd_mem_entryNodes hq))
          (hae.child (snd_mem_entryNodes hp)) (hbe.child (snd_mem_entryNodes hq)) hx
      | _ => exact hnowhere rfl rfl rfl
    | element x =>
      cases joined_iff.1 h with
      | @set e e' t es fs =>
        exact livesAt_join_element hs e e' _ (fun n hn => ha.child hn) fun n hn => hb.child hn
      | _ => exact hnowhere rfl rfl rfl

/-- Two documents are joined in which every node carries an expiration. A literal, predicate or
smart node stays after a sweep of the join just if it stays after one of the left side, or after one
of the right side and is not in an element that both have. So all that stays on either side stays in
the join just if what is in such elements stays on the left if it does on the right. -/
theorem staysAt_join_iff {a b r : Node} (ha : a.WellFormed) (hb : b.WellFormed)
    (hae : a.Everywhere fun n => n.expiry.isSome = true)
    (hbe : b.Everywhere fun n => n.expiry.isSome = true)
    (h : merge Resolver.reject a b = .ok r) :
    (∀ now path, (∀ s ∈ path, s.name.WellFormed) → (StaysAt now path r ↔
      StaysAt now path a ∨ StaysAt now path b ∧ ¬ Shadowed path a b)) ∧
    ((∀ now path, (∀ s ∈ path, s.name.WellFormed) →
        StaysAt now path a ∨ StaysAt now path b → StaysAt now path r) ↔
      ∀ now path, (∀ s ∈ path, s.name.WellFormed) →
        StaysAt now path b → Shadowed path a b → StaysAt now path a) := by
  have hjoin : ∀ now path, (∀ s ∈ path, s.name.WellFormed) → (StaysAt now path r ↔
      StaysAt now path a ∨ StaysAt now path b ∧ ¬ Shadowed path a b) := by
    intro now path hpath
    rw [staysAt_iff hpath ha, staysAt_iff hpath hb, staysAt_iff hpath (ha.join hb h)]
    exact livesAt_join_iff hpath ha hb hae hbe h
  refine ⟨hjoin, forall₃_congr fun now path hpath => ?_⟩
  rw [hjoin now path hpath]
  tauto

/-- A set of texts, and the time until which each of them and the set lives. -/
def textsUntil (now : Instant) (texts : List (String × Instant)) : Node :=
  set (some now) "" (texts.map fun p => leaf (some p.2) (.string p.1))

/-- The text that both sides have lives as long as on the left, the other one is kept. -/
theorem staysAt_join_iff_textsUntil :
    (∀ now path, (∀ s ∈ path, s.name.WellFormed) →
      (StaysAt now path (textsUntil 30 [("a", 20), ("b", 30)]) ↔
        StaysAt now path (textsUntil 20 [("a", 20)]) ∨
          StaysAt now path (textsUntil 30 [("a", 10), ("b", 30)]) ∧
            ¬ Shadowed path (textsUntil 20 [("a", 20)]) (textsUntil 30 [("a", 10), ("b", 30)]))) ∧
    ((∀ now path, (∀ s ∈ path, s.name.WellFormed) →
        StaysAt now path (textsUntil 20 [("a", 20)]) ∨
          StaysAt now path (textsUntil 30 [("a", 10), ("b", 30)]) →
        StaysAt now path (textsUntil 30 [("a", 20), ("b", 30)])) ↔
      ∀ now path, (∀ s ∈ path, s.name.WellFormed) →
        StaysAt now path (textsUntil 30 [("a", 10), ("b", 30)]) →
        Shadowed path (textsUntil 20 [("a", 20)]) (textsUntil 30 [("a", 10), ("b", 30)]) →
        StaysAt now path (textsUntil 20 [("a", 20)])) :=
  staysAt_join_iff (by decide) (by decide) (by decide) (by decide) rfl

/-- The text lives until 20 on the right side and is gone from the join at 15. -/
theorem not_staysAt_join : ¬ ∀ (a b r : Node), a.WellFormed → b.WellFormed →
    (a.Everywhere fun n => n.expiry.isSome = true) →
    (b.Everywhere fun n => n.expiry.isSome = true) → merge Resolver.reject a b = .ok r →
    ∀ now path, (∀ s ∈ path, s.name.WellFormed) →
      StaysAt now path a ∨ StaysAt now path b → StaysAt now path r := by
  intro h
  let text := leaf none (.string "a")
  have hpath : ∀ s ∈ [Hop.element text], s.name.WellFormed := by simp [Hop.name]; decide
  have hstays : StaysAt 15 [.element text] (textsUntil 20 [("a", 20)]) :=
    (staysAt_iff hpath (by decide)).2 ⟨leaf (some 20) (.string "a"), rfl, rfl, rfl⟩
  obtain ⟨c, hc, _, hlives⟩ := (staysAt_iff hpath (by decide)).1 <|
    h (textsUntil 10 [("a", 10)]) (textsUntil 20 [("a", 20)]) (textsUntil 20 [("a", 10)])
      (by decide) (by decide) (by decide) (by decide) rfl 15 [.element text] hpath (.inr hstays)
  obtain rfl : leaf (some 10) (.string "a") = c := Option.some.inj hc
  exact absurd hlives (by decide)

end Node

end PeerRecords
