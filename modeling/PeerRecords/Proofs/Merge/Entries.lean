import PeerRecords.Merge
import PeerRecords.Proofs.Regrouping
import PeerRecords.Proofs.Node.Lookup

/-
  Lists and entries in a merge and in a join.
  A merge unites lists of nodes, the second adding what the first has not (`addAll`), and merges
  entries key by key: the first entry of the left list takes its partner out of the right one
  (`mergedEntries_cons`). A join is the merge that allows no conflict (`join`). In it what is joined
  at one key has nothing to do with what is joined at the others (`joinEntries_split`), so three
  lists of entries may be joined from the left or from the right if three values at one key may
  (`joinEntries_assoc`).
-/

namespace PeerRecords

open Node

/-! ## United lists -/

namespace NodeSet

/-- The first list with those nodes of the second that are not there yet. -/
abbrev addAll (ns ms : List Node) : List Node := ms.foldl addTo ns

theorem addAll_cons (ns : List Node) (m : Node) (ms : List Node) :
    addAll ns (m :: ms) = addAll (addTo ns m) ms := rfl

theorem addTo_of_isIn {n : Node} {ns : List Node} (h : n.isIn ns = true) : addTo ns n = ns :=
  if_pos h

theorem addTo_of_not_isIn {n : Node} {ns : List Node} (h : n.isIn ns = false) :
    addTo ns n = ns ++ [n] := if_neg (Bool.eq_false_iff.1 h)

theorem isIn_append {x : Node} {ns ms : List Node} :
    x.isIn (ns ++ ms) = (x.isIn ns || x.isIn ms) := List.any_append

/-- A node that is there stays there. -/
theorem isIn_addTo {x : Node} (n : Node) {ns : List Node} (h : x.isIn ns = true) :
    x.isIn (addTo ns n) = true := by
  unfold addTo
  split
  · exact h
  · rw [isIn_append, h, Bool.true_or]

theorem isIn_addAll {x : Node} (ms : List Node) {ns : List Node} (h : x.isIn ns = true) :
    x.isIn (addAll ns ms) = true := by
  induction ms generalizing ns with
  | nil => exact h
  | cons m ms ih => exact ih (isIn_addTo m h)

theorem isIn_addTo_self {n : Node} (hn : n.eqv n = true) (ns : List Node) :
    n.isIn (addTo ns n) = true := by
  unfold addTo
  split
  · assumption
  · rw [isIn_append, Bool.or_eq_true]
    exact .inr (List.any_eq_true.2 ⟨n, List.mem_singleton_self n, hn⟩)

theorem isIn_addAll_of_mem {ns ms : List Node} (hms : ∀ m ∈ ms, m.eqv m = true) {m : Node}
    (hm : m ∈ ms) : m.isIn (addAll ns ms) = true := by
  induction ms generalizing ns with
  | nil => exact absurd hm List.not_mem_nil
  | cons n ms ih =>
    obtain ⟨hn, hrest⟩ := List.forall_mem_cons.1 hms
    obtain rfl | hm := List.mem_cons.1 hm
    · exact isIn_addAll ms (isIn_addTo_self hn ns)
    · exact ih hrest hm

theorem subset_addAll (ns ms : List Node) : ns ⊆ addAll ns ms := by
  induction ms generalizing ns with
  | nil => exact List.Subset.refl ns
  | cons m ms ih =>
    refine List.Subset.trans ?_ (ih (addTo ns m))
    unfold addTo
    split
    · exact List.Subset.refl ns
    · exact List.subset_append_left ns [m]

/-- A node is in the united list just if it is in one of the two. -/
theorem isIn_addAll_iff {x : Node} (hx : x.WellFormed) {ns ms : List Node}
    (hns : ∀ n ∈ ns, n.WellFormed) (hms : ∀ m ∈ ms, m.WellFormed) :
    x.isIn (addAll ns ms) = true ↔ x.isIn ns = true ∨ x.isIn ms = true := by
  constructor
  · intro h
    obtain ⟨n, hn, hnx⟩ := List.any_eq_true.1 h
    obtain hn | hn := mem_addAll hn
    · exact .inl (List.any_eq_true.2 ⟨n, hn, hnx⟩)
    · exact .inr (List.any_eq_true.2 ⟨n, hn, hnx⟩)
  rintro (h | h)
  · exact isIn_addAll ms h
  induction ms generalizing ns with
  | nil => cases h
  | cons m ms ih =>
    obtain ⟨hm, hrest⟩ := List.forall_mem_cons.1 hms
    have hadded : ∀ n ∈ addTo ns m, n.WellFormed := by
      intro n hn
      obtain hn | rfl := mem_addTo hn
      · exact hns n hn
      · exact hm
    rw [addAll_cons]
    cases hmx : m.eqv x with
    | false => exact ih hadded hrest (by simpa [isIn, hmx] using h)
    | true =>
      refine isIn_addAll ms ?_
      cases hin : m.isIn ns with
      | false =>
        rw [addTo_of_not_isIn hin, isIn_append]
        simp [isIn, hmx]
      | true =>
        rw [addTo_of_isIn hin]
        obtain ⟨n, hn, hnm⟩ := List.any_eq_true.1 hin
        exact List.any_eq_true.2 ⟨n, hn, eqv_trans (hns n hn) hm hx hnm hmx⟩

theorem isIn_addAll_comm {x : Node} (hx : x.WellFormed) {ns ms : List Node}
    (hns : ∀ n ∈ ns, n.WellFormed) (hms : ∀ m ∈ ms, m.WellFormed) :
    x.isIn (addAll ns ms) = x.isIn (addAll ms ns) := by
  rw [Bool.eq_iff_iff, isIn_addAll_iff hx hns hms, isIn_addAll_iff hx hms hns, or_comm]

/-- A list whose nodes are all there adds nothing. -/
theorem addAll_of_forall_isIn {ns ms : List Node} (h : ∀ m ∈ ms, m.isIn ns = true) :
    addAll ns ms = ns := by
  induction ms with
  | nil => rfl
  | cons m ms ih =>
    obtain ⟨hm, hrest⟩ := List.forall_mem_cons.1 h
    rw [addAll_cons, addTo_of_isIn hm]
    exact ih hrest

theorem addAll_self {ns : List Node} (hns : ∀ n ∈ ns, n.WellFormed) : addAll ns ns = ns :=
  addAll_of_forall_isIn fun n hn =>
    List.any_eq_true.2 ⟨n, hn, eqv_refl (hns n hn).distinctKeys⟩

theorem wellFormed_addAll {ns ms : List Node} (hns : ∀ n ∈ ns, n.WellFormed)
    (hms : ∀ m ∈ ms, m.WellFormed) : ∀ n ∈ addAll ns ms, n.WellFormed := by
  intro n hn
  obtain hn | hn := mem_addAll hn
  · exact hns n hn
  · exact hms n hn

/-- Three lists may be united from the left or from the right; elements may repeat. -/
theorem addAll_assoc {ns ms ls : List Node} (hns : ∀ n ∈ ns, n.WellFormed)
    (hms : ∀ m ∈ ms, m.WellFormed) (hls : ∀ l ∈ ls, l.WellFormed) :
    addAll (addAll ns ms) ls = addAll ns (addAll ms ls) := by
  induction ls generalizing ms with
  | nil => rfl
  | cons l ls ih =>
    obtain ⟨hl, hrest⟩ := List.forall_mem_cons.1 hls
    rw [addAll_cons, addAll_cons]
    cases hin : l.isIn ms with
    | true =>
      have hthere := (isIn_addAll_iff hl hns hms).2 (.inr hin)
      rw [addTo_of_isIn hthere, addTo_of_isIn hin]
      exact ih hms hrest
    | false =>
      have hadded : addTo (addAll ns ms) l = addAll ns (ms ++ [l]) := by
        rw [addAll, addAll, List.foldl_append, List.foldl_cons, List.foldl_nil]
      rw [hadded, addTo_of_not_isIn hin]
      exact ih (List.forall_mem_append.2 ⟨hms, List.forall_mem_singleton.2 hl⟩) hrest

/-- A choice that takes equal nodes alike may be made before lists are united or after. -/
theorem filter_addAll {C : Node → Prop} {keep : Node → Bool}
    (hkeep : ∀ x y, C x → C y → x.eqv y = true → keep x = keep y) {ns ms : List Node}
    (hns : ∀ n ∈ ns, C n) (hms : ∀ m ∈ ms, C m) :
    (addAll ns ms).filter keep = addAll (ns.filter keep) (ms.filter keep) := by
  induction ms generalizing ns with
  | nil => rfl
  | cons m ms ih =>
    obtain ⟨hm, hrest⟩ := List.forall_mem_cons.1 hms
    have hadded : ∀ n ∈ addTo ns m, C n := by
      intro n hn
      obtain hn | rfl := mem_addTo hn
      · exact hns n hn
      · exact hm
    have hstep : (addTo ns m).filter keep =
        if keep m then addTo (ns.filter keep) m else ns.filter keep := by
      have hin : keep m = true → m.isIn (ns.filter keep) = m.isIn ns := by
        intro hkm
        rw [Bool.eq_iff_iff, isIn, isIn, List.any_eq_true, List.any_eq_true]
        constructor
        · rintro ⟨n, hn, hnm⟩
          exact ⟨n, (List.mem_filter.1 hn).1, hnm⟩
        · rintro ⟨n, hn, hnm⟩
          refine ⟨n, List.mem_filter.2 ⟨hn, ?_⟩, hnm⟩
          rw [hkeep n m (hns n hn) hm hnm, hkm]
      unfold addTo
      cases hkm : keep m with
      | false => cases m.isIn ns <;> simp [hkm]
      | true =>
        rw [hin hkm]
        cases m.isIn ns <;> simp [hkm]
    rw [addAll_cons]
    refine (ih hadded hrest).trans ?_
    rw [hstep, List.filter_cons]
    cases keep m <;> rfl

end NodeSet

/-! ## Joined entries -/

namespace Node

/-- The join of two documents, with no conflict allowed. -/
def join (a b : Node) : Except Error Node := merge Resolver.reject a b

/-- The entries of a join: the left ones, each joined with its partner, and the right ones that have
none. -/
def joinEntries (ps qs : List (Node × Node)) : Except Error (List (Node × Node)) :=
  mergeEntries Resolver.reject ps qs >>= fun rs => .ok (rs ++ unmatched ps qs)

/-- A value joined with its partner, if it has one. -/
def joinValue (v : Node) : Option Node → Except Error Node
  | some w => v.join w
  | none => .ok v

/-- What two lists of entries have at a key, joined. -/
def joinAt : Option Node → Option Node → Except Error (Option Node)
  | some v, o => joinValue v o >>= fun w => .ok (some w)
  | none, o => .ok o

/-- The entries of a merge: the left ones, each merged with its partner, and the right ones that
have none. -/
def mergedEntries (resolve : Resolver (Except Error)) (ps qs : List (Node × Node)) :
    Except Error (List (Node × Node)) :=
  mergeEntries resolve ps qs >>= fun rs => .ok (rs ++ unmatched ps qs)

/-- A value merged with its partner, if it has one. -/
def mergedValue (resolve : Resolver (Except Error)) (v : Node) : Option Node → Except Error Node
  | some w => merge resolve v w
  | none => .ok v

section

variable (resolve : Resolver (Except Error))

theorem mergeEntries_eq_mergedValue (p : Node × Node) (ps qs : List (Node × Node)) :
    mergeEntries resolve (p :: ps) qs = mergedValue resolve p.2 (Entries.at? p.1 qs) >>= fun w =>
      mergeEntries resolve ps qs >>= fun rs => .ok ((p.1, w) :: rs) := by
  rw [mergeEntries, Entries.at?]
  cases Entries.lookup? (Dict.isKey p.1) qs <;> rfl

theorem mergeEntries_cons (p : Node × Node) (ps qs : List (Node × Node)) :
    mergeEntries Resolver.reject (p :: ps) qs = joinValue p.2 (Entries.at? p.1 qs) >>= fun w =>
      mergeEntries Resolver.reject ps qs >>= fun rs => .ok ((p.1, w) :: rs) :=
  mergeEntries_eq_mergedValue Resolver.reject p ps qs

/-- The entry at another key does not matter to a merge. -/
theorem mergeEntries_without {k : Node} (hk : k.WellFormed) {ps qs : List (Node × Node)}
    (hps : ∀ p ∈ ps, p.1.WellFormed) (hother : ∀ p ∈ ps, k.eqv p.1 = false)
    (hqs : ∀ q ∈ qs, q.1.WellFormed) :
    mergeEntries resolve ps (Entries.without k qs) = mergeEntries resolve ps qs := by
  induction ps with
  | nil => rfl
  | cons p ps ih =>
    obtain ⟨hp, hps⟩ := List.forall_mem_cons.1 hps
    obtain ⟨hkp, hother⟩ := List.forall_mem_cons.1 hother
    rw [mergeEntries_eq_mergedValue, mergeEntries_eq_mergedValue,
      Entries.at?_without hk hp hqs hkp, ih hps hother]

end

theorem unmatched_cons {p : Node × Node} (hp : p.1.WellFormed) (ps : List (Node × Node))
    {qs : List (Node × Node)} (hqs : ∀ q ∈ qs, q.1.WellFormed) :
    unmatched (p :: ps) qs = unmatched ps (Entries.without p.1 qs) := by
  rw [unmatched, unmatched, Entries.without, List.filter_filter]
  refine List.filter_congr fun q hq => ?_
  show (Entries.at? q.1 (p :: ps)).isNone = ((Entries.at? q.1 ps).isNone && !q.1.eqv p.1)
  rw [Entries.at?_cons, eqv_comm hp (hqs q hq)]
  cases q.1.eqv p.1 <;> simp

theorem mergedEntries_nil_left (resolve : Resolver (Except Error)) (qs : List (Node × Node)) :
    mergedEntries resolve [] qs = .ok qs :=
  congrArg Except.ok (List.filter_eq_self.2 fun _ _ => rfl)

theorem joinEntries_nil_left (qs : List (Node × Node)) : joinEntries [] qs = .ok qs :=
  mergedEntries_nil_left Resolver.reject qs

/-- The first entry is merged with its partner, the others with those at other keys. -/
theorem mergedEntries_cons (resolve : Resolver (Except Error)) {p : Node × Node}
    {ps qs : List (Node × Node)} (hps : Entries.Keyed (p :: ps)) (hqs : Entries.Keyed qs) :
    mergedEntries resolve (p :: ps) qs = mergedValue resolve p.2 (Entries.at? p.1 qs) >>= fun w =>
      mergedEntries resolve ps (Entries.without p.1 qs) >>= fun rs => .ok ((p.1, w) :: rs) := by
  obtain ⟨⟨hp, hother⟩, hps⟩ := Entries.keyed_cons_iff.1 hps
  rw [mergedEntries, mergeEntries_eq_mergedValue, unmatched_cons hp ps hqs.wellFormed,
    mergedEntries, mergeEntries_without resolve hp hps.wellFormed hother hqs.wellFormed, bind_assoc]
  refine congrArg (mergedValue resolve p.2 (Entries.at? p.1 qs) >>= ·) (funext fun w => ?_)
  rw [bind_assoc, bind_assoc]
  rfl

theorem joinEntries_cons {p : Node × Node} {ps qs : List (Node × Node)}
    (hps : Entries.Keyed (p :: ps)) (hqs : Entries.Keyed qs) :
    joinEntries (p :: ps) qs = joinValue p.2 (Entries.at? p.1 qs) >>= fun w =>
      joinEntries ps (Entries.without p.1 qs) >>= fun rs => .ok ((p.1, w) :: rs) :=
  mergedEntries_cons Resolver.reject hps hqs

/-- What holds of the entries on both sides and of what values are joined to holds of all entries of
a join. -/
theorem forall_of_joinEntries {P : Node × Node → Prop} {ps qs rs : List (Node × Node)}
    (h : joinEntries ps qs = .ok rs) (hps : Entries.Keyed ps) (hqs : Entries.Keyed qs)
    (hleft : ∀ p ∈ ps, P p) (hright : ∀ q ∈ qs, P q)
    (hjoin : ∀ p ∈ ps, ∀ q ∈ qs, p.1.eqv q.1 = true → ∀ w, p.2.join q.2 = .ok w → P (p.1, w)) :
    ∀ r ∈ rs, P r := by
  induction ps generalizing qs rs with
  | nil =>
    rw [joinEntries_nil_left] at h
    cases h
    exact hright
  | cons p ps ih =>
    rw [joinEntries_cons hps hqs] at h
    obtain ⟨w, hw, h⟩ := bind_eq_ok.1 h
    obtain ⟨us, hus, h⟩ := bind_eq_ok.1 h
    cases h
    obtain ⟨⟨hp, _⟩, hkeyed⟩ := Entries.keyed_cons_iff.1 hps
    obtain ⟨hleftp, hleft⟩ := List.forall_mem_cons.1 hleft
    obtain ⟨hjoinp, hjoin⟩ := List.forall_mem_cons.1 hjoin
    have hsub : ∀ q ∈ Entries.without p.1 qs, q ∈ qs := fun q hq => (List.mem_filter.1 hq).1
    refine List.forall_mem_cons.2 ⟨?_, ih hus hkeyed (hqs.without p.1) hleft
      (fun q hq => hright q (hsub q hq)) fun x hx q hq => hjoin x hx q (hsub q hq)⟩
    cases hat : Entries.at? p.1 qs with
    | none =>
      rw [hat] at hw
      cases hw
      exact hleftp
    | some v =>
      rw [hat] at hw
      obtain ⟨q, hq, hkey, rfl⟩ := Entries.mem_of_at? hat
      exact hjoinp q hq (eqv_symm (hqs.wellFormed q hq) hp hkey) w hw

/-- A key of a join is a key of one of the two sides. -/
theorem forall_fst_joinEntries {P : Node → Prop} {ps qs rs : List (Node × Node)}
    (h : joinEntries ps qs = .ok rs) (hps : Entries.Keyed ps) (hqs : Entries.Keyed qs)
    (hleft : ∀ p ∈ ps, P p.1) (hright : ∀ q ∈ qs, P q.1) : ∀ r ∈ rs, P r.1 :=
  forall_of_joinEntries (P := fun r => P r.1) h hps hqs hleft hright
    fun p hp _ _ _ _ _ => hleft p hp

/-- The key of the first entry is in no join of the others. -/
theorem forall_joinEntries_other {p : Node × Node} {ps qs us : List (Node × Node)}
    (hps : Entries.Keyed (p :: ps)) (hqs : Entries.Keyed qs)
    (h : joinEntries ps (Entries.without p.1 qs) = .ok us) : ∀ u ∈ us, p.1.eqv u.1 = false := by
  obtain ⟨⟨hp, hother⟩, hkeyed⟩ := Entries.keyed_cons_iff.1 hps
  refine forall_fst_joinEntries (P := fun c => p.1.eqv c = false) h hkeyed (hqs.without p.1)
    hother fun q hq => ?_
  obtain ⟨hmem, hne⟩ := List.mem_filter.1 hq
  rw [eqv_comm hp (hqs.wellFormed q hmem)]
  simpa using hne

/-- A join repeats no key. -/
theorem keyed_joinEntries {ps qs rs : List (Node × Node)} (h : joinEntries ps qs = .ok rs)
    (hps : Entries.Keyed ps) (hqs : Entries.Keyed qs) : Entries.Keyed rs := by
  induction ps generalizing qs rs with
  | nil =>
    rw [joinEntries_nil_left] at h
    cases h
    exact hqs
  | cons p ps ih =>
    rw [joinEntries_cons hps hqs] at h
    obtain ⟨w, hw, h⟩ := bind_eq_ok.1 h
    obtain ⟨us, hus, h⟩ := bind_eq_ok.1 h
    cases h
    obtain ⟨⟨hp, _⟩, hkeyed⟩ := Entries.keyed_cons_iff.1 hps
    exact Entries.keyed_cons_iff.2
      ⟨⟨hp, forall_joinEntries_other (p := p) hps hqs hus⟩, ih hus hkeyed (hqs.without p.1)⟩

/-- What a join has at a key is what both sides have there, joined, and the rest is the join of the
rests. -/
theorem joinEntries_split {β : Type} {k : Node} (hk : k.WellFormed) {ps qs : List (Node × Node)}
    (hps : Entries.Keyed ps) (hqs : Entries.Keyed qs)
    (f : Option Node → List (Node × Node) → Except Error β) :
    Agree (joinEntries ps qs >>= fun rs => f (Entries.at? k rs) (Entries.without k rs))
      (joinAt (Entries.at? k ps) (Entries.at? k qs) >>= fun o =>
        joinEntries (Entries.without k ps) (Entries.without k qs) >>= fun rs => f o rs) := by
  induction ps generalizing qs f with
  | nil =>
    rw [joinEntries_nil_left, ok_bind]
    show Agree _ (.ok (Entries.at? k qs) >>= fun o =>
      joinEntries [] (Entries.without k qs) >>= fun rs => f o rs)
    rw [ok_bind, joinEntries_nil_left, ok_bind]
    exact .refl _
  | cons p ps ih =>
    obtain ⟨⟨hp, hother⟩, hkeyed⟩ := Entries.keyed_cons_iff.1 hps
    rw [joinEntries_cons hps hqs, Entries.at?_cons, Entries.without_cons]
    cases hpk : p.1.eqv k with
    | true =>
      -- the entry at the key is the first on the left, and none is left at the key
      obtain ⟨hat, hwithout⟩ := Entries.at?_congr hp hk hqs.wellFormed hpk
      have hnone : ∀ q ∈ ps, q.1.eqv k = false := hps.forall_tail_ne hk hpk
      simp only [if_true, hat, hwithout, Entries.without_of_forall hnone, joinAt, bind_assoc,
        ok_bind]
      refine .bind_right fun w _ => .bind_right fun us hus => .of_eq ?_
      have hrest : ∀ u ∈ us, u.1.eqv k = false :=
        forall_fst_joinEntries (P := fun c => c.eqv k = false) hus hkeyed (hqs.without k) hnone
          fun q hq => by simpa using (List.mem_filter.1 hq).2
      rw [Entries.at?_cons, Entries.without_cons, if_pos hpk, if_pos hpk,
        Entries.without_of_forall hrest]
    | false =>
      have hkp : k.eqv p.1 = false := (eqv_comm hk hp).trans hpk
      have hhead : joinEntries (p :: Entries.without k ps) (Entries.without k qs) =
          joinValue p.2 (Entries.at? p.1 qs) >>= fun w =>
            joinEntries (Entries.without k ps) (Entries.without k (Entries.without p.1 qs)) >>=
              fun rs => .ok ((p.1, w) :: rs) := by
        have hkept : Entries.Keyed (p :: Entries.without k ps) := Entries.keyed_cons_iff.2
          ⟨⟨hp, fun q hq => hother q (List.mem_filter.1 hq).1⟩, hkeyed.without k⟩
        rw [joinEntries_cons hkept (hqs.without k), Entries.at?_without hk hp hqs.wellFormed hkp,
          Entries.without_comm]
      simp only [Bool.false_eq_true, if_false, hhead, bind_assoc, ok_bind, Entries.at?_cons,
        Entries.without_cons, hpk]
      refine .trans (.bind_right fun w _ => ih hkeyed (hqs.without p.1)
        fun o rs => f o ((p.1, w) :: rs)) ?_
      rw [Entries.at?_without hp hk hqs.wellFormed hpk]
      exact .bind_comm _ _ _

/-- What a join has at a key is what both sides have there, joined. -/
theorem joinAt_joinEntries {k : Node} (hk : k.WellFormed) {ps qs rs : List (Node × Node)}
    (hps : Entries.Keyed ps) (hqs : Entries.Keyed qs) (h : joinEntries ps qs = .ok rs) :
    joinAt (Entries.at? k ps) (Entries.at? k qs) = .ok (Entries.at? k rs) := by
  have hsplit := joinEntries_split hk hps hqs fun o _ => Except.ok o
  have hok := (hsplit (Entries.at? k rs)).1 (by rw [h, ok_bind])
  obtain ⟨o, ho, hok⟩ := bind_eq_ok.1 hok
  obtain ⟨us, _, hok⟩ := bind_eq_ok.1 hok
  cases hok
  exact ho

theorem joinValue_assoc {v : Node} {o o' : Option Node}
    (h : ∀ a ∈ o, ∀ b ∈ o',
      Agree (v.join a >>= fun r => r.join b) (a.join b >>= fun r => v.join r)) :
    Agree (joinValue v o >>= fun w => joinValue w o') (joinAt o o' >>= joinValue v) := by
  cases o with
  | none => exact .refl _
  | some a =>
    cases o' with
    | none => exact .of_eq (bind_pure (v.join a))
    | some b =>
      show Agree _ ((a.join b >>= fun w => .ok (some w)) >>= joinValue v)
      rw [bind_assoc]
      exact h a rfl b rfl

/-- Three lists of entries may be joined from the left or from the right. -/
theorem joinEntries_assoc {ps qs rs : List (Node × Node)} (hps : Entries.Keyed ps)
    (hqs : Entries.Keyed qs) (hrs : Entries.Keyed rs)
    (h : ∀ p ∈ ps, ∀ q ∈ qs, ∀ r ∈ rs,
      Agree (p.2.join q.2 >>= fun x => x.join r.2) (q.2.join r.2 >>= fun x => p.2.join x)) :
    Agree (joinEntries ps qs >>= fun us => joinEntries us rs)
      (joinEntries qs rs >>= fun us => joinEntries ps us) := by
  induction ps generalizing qs rs with
  | nil =>
    rw [joinEntries_nil_left, ok_bind]
    refine .of_eq ?_
    simp only [joinEntries_nil_left]
    exact (bind_pure _).symm
  | cons p ps ih =>
    obtain ⟨⟨hp, hother⟩, hkeyed⟩ := Entries.keyed_cons_iff.1 hps
    obtain ⟨hhere, hrest⟩ := List.forall_mem_cons.1 h
    have hsub : ∀ {xs : List (Node × Node)}, ∀ x ∈ Entries.without p.1 xs, x ∈ xs :=
      fun x hx => (List.mem_filter.1 hx).1
    have hvalue : Agree
        (joinValue p.2 (Entries.at? p.1 qs) >>= fun w => joinValue w (Entries.at? p.1 rs))
        (joinAt (Entries.at? p.1 qs) (Entries.at? p.1 rs) >>= joinValue p.2) := by
      refine joinValue_assoc fun a ha b hb => ?_
      obtain ⟨q, hq, _, rfl⟩ := Entries.mem_of_at? ha
      obtain ⟨r, hr, _, rfl⟩ := Entries.mem_of_at? hb
      exact hhere q hq r hr
    calc (joinEntries (p :: ps) qs >>= fun us => joinEntries us rs)
      _ = joinValue p.2 (Entries.at? p.1 qs) >>= fun w =>
          joinEntries ps (Entries.without p.1 qs) >>= fun us =>
          joinEntries ((p.1, w) :: us) rs := by
        simp only [joinEntries_cons hps hqs, bind_assoc, ok_bind]
      Agree _ (joinValue p.2 (Entries.at? p.1 qs) >>= fun w =>
          joinEntries ps (Entries.without p.1 qs) >>= fun us =>
          joinValue w (Entries.at? p.1 rs) >>= fun x =>
          joinEntries us (Entries.without p.1 rs) >>= fun xs => .ok ((p.1, x) :: xs)) := by
        refine .bind_right fun w _ => .bind_right fun us hus => .of_eq ?_
        have hother := forall_joinEntries_other (p := p) hps hqs hus
        exact joinEntries_cons (Entries.keyed_cons_iff.2 ⟨⟨hp, hother⟩,
          keyed_joinEntries hus hkeyed (hqs.without p.1)⟩) hrs
      Agree _ (joinValue p.2 (Entries.at? p.1 qs) >>= fun w =>
          joinValue w (Entries.at? p.1 rs) >>= fun x =>
          joinEntries ps (Entries.without p.1 qs) >>= fun us =>
          joinEntries us (Entries.without p.1 rs) >>= fun xs => .ok ((p.1, x) :: xs)) :=
        .bind_right fun w _ => .bind_comm _ _ _
      Agree _ (joinAt (Entries.at? p.1 qs) (Entries.at? p.1 rs) >>= fun o =>
          joinValue p.2 o >>= fun x =>
          joinEntries (Entries.without p.1 qs) (Entries.without p.1 rs) >>= fun us =>
          joinEntries ps us >>= fun xs => .ok ((p.1, x) :: xs)) := by
        have hothers := ih hkeyed (hqs.without p.1) (hrs.without p.1)
          fun x hx q hq r hr => hrest x hx q (hsub q hq) r (hsub r hr)
        simpa only [bind_assoc] using hvalue.bind fun x _ =>
          hothers.bind_left fun xs => .ok ((p.1, x) :: xs)
      Agree _ (joinAt (Entries.at? p.1 qs) (Entries.at? p.1 rs) >>= fun o =>
          joinEntries (Entries.without p.1 qs) (Entries.without p.1 rs) >>= fun us =>
          joinValue p.2 o >>= fun x => joinEntries ps us >>= fun xs => .ok ((p.1, x) :: xs)) :=
        .bind_right fun o _ => .bind_comm _ _ _
      Agree _ (joinEntries qs rs >>= fun us => joinValue p.2 (Entries.at? p.1 us) >>= fun x =>
          joinEntries ps (Entries.without p.1 us) >>= fun xs => .ok ((p.1, x) :: xs)) :=
        (joinEntries_split hp hqs hrs fun o us => joinValue p.2 o >>= fun x =>
          joinEntries ps us >>= fun xs => .ok ((p.1, x) :: xs)).symm
      Agree _ (joinEntries qs rs >>= fun us => joinEntries (p :: ps) us) :=
        .bind_right fun us hus => .of_eq (joinEntries_cons hps (keyed_joinEntries hus hqs hrs)).symm

end Node

end PeerRecords
