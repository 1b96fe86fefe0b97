import PeerRecords.Projection
import PeerRecords.Proofs.Node.Lookup

/-
  Projection as a restriction.
  `Restricts source sel taken` says which entries a selector takes of a source: each under a key
  that both have, in the selector's order, with the source's value there or the part of it that the
  selector's own entries restrict it to, and one for each key whose value is what the selector asks
  for. Over keys that are pairwise unequal there is one such list, and the projection is it
  (`restricts_iff`). What was taken is taken again (`projectEntries_idem`), and a dict takes all of
  itself (`projectEntries_self`); `project_restricts_and_idem` puts these together.
-/

namespace PeerRecords

open Node Entries

namespace Node

/-- Two nodes are unequal, whichever of them asks. -/
def Unequal (a b : Node) : Prop := a.eqv b = false ∧ b.eqv a = false

instance (a b : Node) : Decidable (Unequal a b) := inferInstanceAs (Decidable (_ ∧ _))

/-- The keys of the node are pairwise unequal. -/
def HasUnequalKeys (n : Node) : Prop := n.keys.Pairwise Unequal

instance (n : Node) : Decidable n.HasUnequalKeys := inferInstanceAs (Decidable (List.Pairwise _ _))

theorem HasUnequalKeys.distinct {n : Node} (h : n.HasUnequalKeys) : n.HasDistinctKeys :=
  areDistinct_iff.2 (h.imp And.left)

end Node

namespace Dict

/-! ## What a selector asks for and takes -/

/-- The value found is of the sort that a selector's value asks for; an empty dict asks for a dict
with its tag. -/
def Asks (want found : Node) : Prop :=
  want.sameSort found = true ∧
    ∀ e t e' u ps, want = .dict e t [] → found = .dict e' u ps → t = u

mutual

/-- What a selector's value takes of the value found that it asks for: all of it, or the part of a
dict that a dict with entries restricts it to. -/
inductive Takes : Node → Node → Node → Prop where
  | whole {want found : Node} (hwant : ∀ e t p sel, want ≠ .dict e t (p :: sel))
      (h : Asks want found) : Takes want found found
  | part {e e' : Expiry} {t u : String} {p : Node × Node} {sel ps rs : List (Node × Node)}
      (h : Restricts ps (p :: sel) rs) :
      Takes (.dict e t (p :: sel)) (.dict e' u ps) (.dict e' u rs)

/-- The entries that a selector takes of a source: each of a key that both have, with what the
selector's value takes of the source's, and one for each key whose value is asked for. -/
inductive Restricts : List (Node × Node) → List (Node × Node) → List (Node × Node) → Prop where
  | intro {source sel taken : List (Node × Node)}
      (keys : (taken.map (·.1)).Sublist (sel.map (·.1)))
      (want found : Node × Node → Node)
      (asked : ∀ r ∈ taken, (r.1, want r) ∈ sel)
      (there : ∀ r ∈ taken, at? r.1 source = some (found r))
      (takes : ∀ r ∈ taken, Takes (want r) (found r) r.2)
      (all : ∀ q ∈ sel, ∀ n, at? q.1 source = some n → Asks q.2 n → q.1 ∈ taken.map (·.1)) :
      Restricts source sel taken

end

/-- A dict is the restriction of another that a selector asks for. -/
structure IsRestriction (source selector taken : Dict) : Prop where
  tag : taken.tag = source.tag
  entries : Restricts source.entries selector.entries taken.entries

/-! ## Projection, entry by entry -/

/-- The entry that an entry of the selector takes, if any. -/
def taken? (source : List (Node × Node)) (q : Node × Node) : Option (Node × Node) :=
  ((at? q.1 source).bind fun found => projectValue q.2 found).map fun n => (q.1, n)

theorem taken?_eq_some_iff {source : List (Node × Node)} {q r : Node × Node} :
    taken? source q = some r ↔
      r.1 = q.1 ∧ ∃ found, at? q.1 source = some found ∧ projectValue q.2 found = some r.2 := by
  simp only [taken?, Option.map_eq_some_iff, Option.bind_eq_some_iff]
  constructor
  · rintro ⟨n, h, rfl⟩
    exact ⟨rfl, h⟩
  · rintro ⟨hkey, h⟩
    exact ⟨r.2, h, by rw [← hkey]⟩

theorem sublist_keys_taken (source sel : List (Node × Node)) :
    ((sel.filterMap (taken? source)).map (·.1)).Sublist (sel.map (·.1)) := by
  induction sel with
  | nil => exact .slnil
  | cons q sel ih =>
    cases h : taken? source q with
    | none =>
      rw [List.filterMap_cons_none h]
      exact ih.cons q.1
    | some r =>
      rw [List.filterMap_cons_some h, List.map_cons, (taken?_eq_some_iff.1 h).1]
      exact ih.cons_cons q.1

/-- Keys that are new go to the end, in the selector's order. -/
theorem projectEntries_eq_append {source taken sel : List (Node × Node)}
    (hnew : ∀ p ∈ taken, ∀ q ∈ sel, p.1.eqv q.1 = false)
    (hsel : areDistinct (sel.map (·.1)) = true) :
    projectEntries source taken sel = taken ++ sel.filterMap (taken? source) := by
  induction sel generalizing taken with
  | nil => exact (List.append_nil taken).symm
  | cons q sel ih =>
    obtain ⟨k, want⟩ := q
    rw [areDistinct_iff, List.map_cons, List.pairwise_cons, List.forall_mem_map,
      ← areDistinct_iff] at hsel
    have hrest : ∀ p ∈ taken, ∀ q ∈ sel, p.1.eqv q.1 = false :=
      fun p hp q hq => hnew p hp q (List.mem_cons_of_mem _ hq)
    rw [projectEntries]
    cases h : (at? k source).bind fun found => projectValue want found with
    | none =>
      have hskip : taken? source (k, want) = none := by rw [taken?, h]; rfl
      rw [List.filterMap_cons_none hskip]
      exact ih hrest hsel.2
    | some n =>
      have htake : taken? source (k, want) = some (k, n) := by rw [taken?, h]; rfl
      have hput : put (isKey k) k n taken = taken ++ [(k, n)] :=
        put_of_forall_not fun p hp => hnew p hp _ List.mem_cons_self
      rw [List.filterMap_cons_some htake, List.append_cons, ← hput]
      refine ih (fun p hp => ?_) hsel.2
      rw [hput] at hp
      obtain hp | hp := List.mem_append.1 hp
      · exact hrest p hp
      · rw [List.mem_singleton.1 hp]
        exact hsel.1

theorem projectEntries_eq_filterMap (source : List (Node × Node)) {sel : List (Node × Node)}
    (hsel : areDistinct (sel.map (·.1)) = true) :
    projectEntries source [] sel = sel.filterMap (taken? source) :=
  projectEntries_eq_append (fun _ hp => absurd hp List.not_mem_nil) hsel

/-! ## One value at a time -/

section

variable {want found n : Node}

theorem sameSort_self (n : Node) : n.sameSort n = true := by
  cases n <;> simp [sameSort, isSmart]

/-- Only a dict with entries takes less than all. -/
theorem takes_iff_of_ne (hwant : ∀ e t p sel, want ≠ .dict e t (p :: sel)) :
    Takes want found n ↔ Asks want found ∧ n = found := by
  constructor
  · intro h
    cases h with
    | whole _ h => exact ⟨h, rfl⟩
    | part h => exact absurd rfl (hwant _ _ _ _)
  · rintro ⟨h, rfl⟩
    exact .whole hwant h

theorem asks_dict_nil_iff {e e' : Expiry} {t u : String} {ps : List (Node × Node)} :
    Asks (.dict e t []) (.dict e' u ps) ↔ t = u := by
  constructor
  · intro h
    exact h.2 e t e' u ps rfl rfl
  · rintro rfl
    exact ⟨rfl, fun _ _ _ _ _ h h' => (Node.dict.inj h).2.1.symm.trans (Node.dict.inj h').2.1⟩

theorem projectValue_iff_of_ne (hwant : ∀ e t p sel, want ≠ .dict e t (p :: sel)) :
    projectValue want found = some n ↔ Asks want found ∧ n = found := by
  have hsort : (if want.sameSort found then some found else none) = some n ↔
      want.sameSort found = true ∧ n = found := by
    rw [Option.ite_none_right_eq_some, Option.some_inj, eq_comm (a := found)]
  cases want with
  | dict e t sel =>
    obtain rfl : sel = [] := by
      cases sel with
      | nil => rfl
      | cons p sel => exact absurd rfl (hwant e t p sel)
    cases found with
    | dict e' u ps =>
      rw [asks_dict_nil_iff]
      simp [projectValue, eq_comm]
    | _ => simp [projectValue, Asks, sameSort, isSmart]
  | _ =>
    refine hsort.trans (and_congr_left fun _ => ?_)
    simp [Asks]

theorem takes_dict_iff {e : Expiry} {t : String} {p : Node × Node} {sel : List (Node × Node)} :
    Takes (.dict e t (p :: sel)) found n ↔ ∃ e' u ps rs,
      found = .dict e' u ps ∧ n = .dict e' u rs ∧ Restricts ps (p :: sel) rs := by
  constructor
  · intro h
    cases h with
    | whole hwant _ => exact absurd rfl (hwant e t p sel)
    | part h => exact ⟨_, _, _, _, rfl, rfl, h⟩
  · rintro ⟨e', u, ps, rs, rfl, rfl, h⟩
    exact .part h

theorem projectValue_dict_iff {e : Expiry} {t : String} {p : Node × Node}
    {sel : List (Node × Node)} : projectValue (.dict e t (p :: sel)) found = some n ↔
      ∃ e' u ps, found = .dict e' u ps ∧ n = .dict e' u (projectEntries ps [] (p :: sel)) := by
  cases found <;> simp [projectValue, eq_comm]

end

/-- Induction over the values of a selector: those that take all or nothing, and dicts with
entries. -/
@[elab_as_elim]
theorem induct_want {motive : Node → Prop}
    (whole : ∀ want, (∀ e t p sel, want ≠ .dict e t (p :: sel)) → motive want)
    (part : ∀ e t p sel, (∀ q ∈ p :: sel, motive q.2) → motive (.dict e t (p :: sel)))
    (want : Node) : motive want := by
  induction want using induct_children with
  | step want ih =>
    by_cases hdict : ∃ e t p sel, want = .dict e t (p :: sel)
    · obtain ⟨e, t, p, sel, rfl⟩ := hdict
      exact part e t p sel fun q hq => ih q.2 (snd_mem_entryNodes hq)
    · simp only [not_exists] at hdict
      exact whole want hdict

/-- Something is taken of what is asked for and of nothing else. -/
theorem asks_iff {want found : Node} : Asks want found ↔ ∃ n, projectValue want found = some n := by
  cases want using induct_want with
  | whole want hwant => simp [projectValue_iff_of_ne hwant]
  | part e t p sel => cases found <;> simp [projectValue, Asks, sameSort, isSmart]

/-! ## The projection as the one restriction -/

/-- Entries that go by the keys of others are picked out by what each of those comes to. -/
theorem eq_filterMap_of_keys {f : Node × Node → Option (Node × Node)}
    {sel taken : List (Node × Node)} (hf : ∀ q r, f q = some r → r.1 = q.1)
    (hsel : (sel.map (·.1)).Nodup)
    (hkeys : (taken.map (·.1)).Sublist (sel.map (·.1)))
    (hfrom : ∀ r ∈ taken, ∃ q ∈ sel, f q = some r)
    (hall : ∀ q ∈ sel, ∀ r, f q = some r → r.1 ∈ taken.map (·.1)) : taken = sel.filterMap f := by
  induction sel generalizing taken with
  | nil => exact List.map_eq_nil_iff.1 (List.sublist_nil.1 hkeys)
  | cons q sel ih =>
    obtain ⟨hq, hsel⟩ : q.1 ∉ sel.map (·.1) ∧ (sel.map (·.1)).Nodup := List.nodup_cons.1 hsel
    obtain hrest | ⟨ks, hks, hrest⟩ := List.sublist_cons_iff.1 hkeys
    · -- the first key is taken by no entry
      have hnone : f q = none := by
        refine Option.eq_none_iff_forall_not_mem.2 fun r hr => hq (hrest.subset ?_)
        have hkey := hall q List.mem_cons_self r hr
        rwa [hf q r hr] at hkey
      rw [List.filterMap_cons_none hnone]
      refine ih hsel hrest (fun r hr => ?_) fun q' hq' => hall q' (List.mem_cons_of_mem q hq')
      obtain ⟨q', hq', hr'⟩ := hfrom r hr
      obtain rfl | hq' := List.mem_cons.1 hq'
      · rw [hnone] at hr'
        cases hr'
      · exact ⟨q', hq', hr'⟩
    · -- the first key is that of the first entry
      obtain ⟨r, taken, rfl, hrq, rfl⟩ := List.map_eq_cons_iff.1 hks
      replace hrq : r.1 = q.1 := hrq
      have hother : ∀ q' ∈ sel, ∀ r', f q' = some r' → r'.1 ≠ r.1 := fun q' hq' r' hr' heq => by
        rw [hf q' r' hr', hrq] at heq
        exact hq (heq ▸ List.mem_map_of_mem hq')
      have hfirst : f q = some r := by
        obtain ⟨q', hq', hr⟩ := hfrom r List.mem_cons_self
        obtain rfl | hq' := List.mem_cons.1 hq'
        · exact hr
        · exact absurd rfl (hother q' hq' r hr)
      rw [List.filterMap_cons_some hfirst]
      refine congrArg (r :: ·) (ih hsel hrest (fun r' hr' => ?_) fun q' hq' r' hr' => ?_)
      · obtain ⟨q', hq', h⟩ := hfrom r' (List.mem_cons_of_mem r hr')
        obtain rfl | hq' := List.mem_cons.1 hq'
        · obtain rfl := Option.some.inj (hfirst.symm.trans h)
          have hkey := hrest.subset (List.mem_map_of_mem (f := (·.1)) hr')
          exact absurd (hrq ▸ hkey) hq
        · exact ⟨q', hq', h⟩
      · exact (List.mem_cons.1 (hall q' (List.mem_cons_of_mem q hq') r' hr')).resolve_left
          (hother q' hq' r' hr')

/-- The restriction of entries, if each value of the selector takes what it is projected to. -/
theorem restricts_iff_of_takes {source sel taken : List (Node × Node)}
    (htakes : ∀ q ∈ sel, ∀ found n, Takes q.2 found n ↔ projectValue q.2 found = some n)
    (hsel : (sel.map (·.1)).Nodup) :
    Restricts source sel taken ↔ taken = sel.filterMap (taken? source) := by
  constructor
  · rintro ⟨hkeys, want, found, hasked, hthere, hvalues, hall⟩
    refine eq_filterMap_of_keys (fun q r hr => (taken?_eq_some_iff.1 hr).1) hsel hkeys ?_ ?_
    · intro r hr
      have hvalue := (htakes _ (hasked r hr) _ _).1 (hvalues r hr)
      exact ⟨_, hasked r hr, taken?_eq_some_iff.2 ⟨rfl, found r, hthere r hr, hvalue⟩⟩
    · intro q hq r hr
      obtain ⟨hkey, n, hn, hvalue⟩ := taken?_eq_some_iff.1 hr
      rw [hkey]
      exact hall q hq n hn (asks_iff.2 ⟨r.2, hvalue⟩)
  · rintro rfl
    have hentry : ∀ r, r ∈ sel.filterMap (taken? source) → ∃ want found, (r.1, want) ∈ sel ∧
        at? r.1 source = some found ∧ Takes want found r.2 := by
      intro r hr
      obtain ⟨q, hq, hr⟩ := List.mem_filterMap.1 hr
      obtain ⟨hkey, found, hfound, hvalue⟩ := taken?_eq_some_iff.1 hr
      rw [hkey]
      exact ⟨q.2, found, hq, hfound, (htakes q hq found r.2).2 hvalue⟩
    choose! want found hasked hthere hvalues using hentry
    refine .intro (sublist_keys_taken source sel) want found hasked hthere hvalues ?_
    intro q hq n hn hasks
    obtain ⟨m, hm⟩ := asks_iff.1 hasks
    have htaken : taken? source q = some (q.1, m) := taken?_eq_some_iff.2 ⟨rfl, n, hn, hm⟩
    exact List.mem_map.2 ⟨_, List.mem_filterMap.2 ⟨q, hq, htaken⟩, rfl⟩

section

variable {e : Expiry} {t : String} {sel : List (Node × Node)}
  (hsel : (Node.dict e t sel).Everywhere HasUnequalKeys)
include hsel

theorem eqv_key_self {q : Node × Node} (hq : q ∈ sel) : q.1.eqv q.1 = true :=
  eqv_refl ((hsel.child (fst_mem_entryNodes hq)).mono fun _ h => h.distinct)

theorem nodup_keys : (sel.map (·.1)).Nodup := by
  refine (everywhere_dict.1 hsel).1.imp_of_mem fun {k l} hk _ h heq => ?_
  obtain ⟨q, hq, rfl⟩ := List.mem_map.1 hk
  rw [← heq] at h
  exact Bool.false_ne_true (h.1.symm.trans (eqv_key_self hsel hq))

end

/-- What a value of a selector takes is what it is projected to. -/
theorem takes_iff {want : Node} (hwant : want.Everywhere HasUnequalKeys) (found n : Node) :
    Takes want found n ↔ projectValue want found = some n := by
  induction want using induct_want generalizing found n with
  | whole want hne => rw [takes_iff_of_ne hne, projectValue_iff_of_ne hne]
  | part e t p sel ih =>
    have hvalues : ∀ ps rs,
        Restricts ps (p :: sel) rs ↔ rs = projectEntries ps [] (p :: sel) := by
      intro ps rs
      rw [projectEntries_eq_filterMap ps hwant.self.distinct]
      exact restricts_iff_of_takes (fun q hq => ih q hq (hwant.child (snd_mem_entryNodes hq)))
        (nodup_keys hwant)
    rw [takes_dict_iff, projectValue_dict_iff]
    simp [hvalues]

theorem restricts_iff {e : Expiry} {t : String} {source sel taken : List (Node × Node)}
    (hsel : (Node.dict e t sel).Everywhere HasUnequalKeys) :
    Restricts source sel taken ↔ taken = projectEntries source [] sel := by
  rw [projectEntries_eq_filterMap source hsel.self.distinct]
  exact restricts_iff_of_takes (fun q hq => takes_iff (hsel.child (snd_mem_entryNodes hq)))
    (nodup_keys hsel)

/-! ## Taking again -/

theorem at?_own {ps : List (Node × Node)} (hps : areDistinct (ps.map (·.1)) = true)
    {p : Node × Node} (hp : p ∈ ps) (hself : p.1.eqv p.1 = true) : at? p.1 ps = some p.2 := by
  rw [areDistinct_iff] at hps
  induction ps with
  | nil => exact absurd hp List.not_mem_nil
  | cons q ps ih =>
    rw [List.map_cons, List.pairwise_cons, List.forall_mem_map] at hps
    rw [at?_cons]
    obtain rfl | hp := List.mem_cons.1 hp
    · rw [if_pos hself]
    · rw [hps.1 p hp, if_neg Bool.false_ne_true]
      exact ih hps.2 hp

/-- At a key of the selector stands what its entry took. -/
theorem at?_filterMap_taken {e : Expiry} {t : String} {source sel : List (Node × Node)}
    (hsel : (Node.dict e t sel).Everywhere HasUnequalKeys) {q : Node × Node} (hq : q ∈ sel) :
    at? q.1 (sel.filterMap (taken? source)) = (taken? source q).map (·.2) := by
  cases h : taken? source q with
  | none =>
    refine at?_eq_none_iff.2 fun r hr => ?_
    obtain ⟨q', hq', hr⟩ := List.mem_filterMap.1 hr
    rw [(taken?_eq_some_iff.1 hr).1]
    have hne : q' ≠ q := fun heq => by
      rw [heq, h] at hr
      cases hr
    have hunequal : sel.Pairwise fun q q' => Unequal q.1 q'.1 := List.pairwise_map.1 hsel.self
    have : Std.Symm fun q q' : Node × Node => Unequal q.1 q'.1 := ⟨fun _ _ => And.symm⟩
    exact (hunequal.forall hq' hq hne).1
  | some r =>
    have hdistinct := areDistinct_sublist (sublist_keys_taken source sel) hsel.self.distinct
    have hkey : r.1 = q.1 := (taken?_eq_some_iff.1 h).1
    rw [← hkey]
    exact at?_own hdistinct (List.mem_filterMap.2 ⟨q, hq, h⟩)
      (hkey.symm ▸ eqv_key_self hsel hq)

theorem projectEntries_idem_of_values {e : Expiry} {t : String} {sel : List (Node × Node)}
    (hsel : (Node.dict e t sel).Everywhere HasUnequalKeys) (source : List (Node × Node))
    (hvalues : ∀ q ∈ sel, ∀ found n, projectValue q.2 found = some n →
      projectValue q.2 n = some n) :
    projectEntries (projectEntries source [] sel) [] sel = projectEntries source [] sel := by
  simp only [fun source => projectEntries_eq_filterMap source hsel.self.distinct]
  refine List.filterMap_congr fun q hq => ?_
  rw [taken?, at?_filterMap_taken hsel hq]
  cases h : taken? source q with
  | none => rfl
  | some r =>
    obtain ⟨hkey, found, _, hr⟩ := taken?_eq_some_iff.1 h
    have hagain : projectValue q.2 r.2 = some r.2 := hvalues q hq found r.2 hr
    rw [Option.map_some, Option.bind_some, hagain, Option.map_some, ← hkey]

/-- A value takes all of what it took. -/
theorem projectValue_idem {want : Node} (hwant : want.Everywhere HasUnequalKeys) {found n : Node}
    (h : projectValue want found = some n) : projectValue want n = some n := by
  induction want using induct_want generalizing found n with
  | whole want hne =>
    obtain ⟨_, rfl⟩ := (projectValue_iff_of_ne hne).1 h
    exact h
  | part e t p sel ih =>
    obtain ⟨e', u, ps, rfl, rfl⟩ := projectValue_dict_iff.1 h
    have hidem := projectEntries_idem_of_values hwant ps fun q hq _ _ =>
      ih q hq (hwant.child (snd_mem_entryNodes hq))
    exact projectValue_dict_iff.2 ⟨e', u, _, rfl, congrArg (Node.dict e' u) hidem.symm⟩

theorem projectEntries_idem {e : Expiry} {t : String} {sel : List (Node × Node)}
    (hsel : (Node.dict e t sel).Everywhere HasUnequalKeys) (source : List (Node × Node)) :
    projectEntries (projectEntries source [] sel) [] sel = projectEntries source [] sel :=
  projectEntries_idem_of_values hsel source fun _ hq _ _ =>
    projectValue_idem (hsel.child (snd_mem_entryNodes hq))

theorem projectEntries_self_of_values {e : Expiry} {t : String} {ps : List (Node × Node)}
    (hps : (Node.dict e t ps).Everywhere HasUnequalKeys)
    (hvalues : ∀ p ∈ ps, projectValue p.2 p.2 = some p.2) : projectEntries ps [] ps = ps := by
  rw [projectEntries_eq_filterMap ps hps.self.distinct]
  have hown : ∀ p ∈ ps, taken? ps p = some p := fun p hp => taken?_eq_some_iff.2
    ⟨rfl, p.2, at?_own hps.self.distinct hp (eqv_key_self hps hp), hvalues p hp⟩
  rw [List.filterMap_congr hown, List.filterMap_some]

/-- A value takes all of itself. -/
theorem projectValue_self {n : Node} (h : n.Everywhere HasUnequalKeys) :
    projectValue n n = some n := by
  induction n using induct_want with
  | whole n hne =>
    refine (projectValue_iff_of_ne hne).2 ⟨⟨sameSort_self n, ?_⟩, rfl⟩
    rintro e t e' u ps rfl heq
    exact (Node.dict.inj heq).2.1
  | part e t p ps ih =>
    have hself := projectEntries_self_of_values h fun q hq =>
      ih q hq (h.child (snd_mem_entryNodes hq))
    exact projectValue_dict_iff.2 ⟨e, t, _, rfl, congrArg (Node.dict e t) hself.symm⟩

theorem projectEntries_self {e : Expiry} {t : String} {ps : List (Node × Node)}
    (hps : (Node.dict e t ps).Everywhere HasUnequalKeys) : projectEntries ps [] ps = ps :=
  projectEntries_self_of_values hps fun _ hp =>
    projectValue_self (hps.child (snd_mem_entryNodes hp))

/-! ## What is taken has unequal keys -/

theorem Restricts.hasUnequalKeys {e e' e'' : Expiry} {t u v : String}
    {source sel taken : List (Node × Node)} (h : Restricts source sel taken)
    (hsource : (Node.dict e t source).Everywhere HasUnequalKeys)
    (hsel : (Node.dict e' u sel).Everywhere HasUnequalKeys)
    (hvalues : ∀ q ∈ sel, ∀ found n, found.Everywhere HasUnequalKeys → Takes q.2 found n →
      n.Everywhere HasUnequalKeys) : (Node.dict e'' v taken).Everywhere HasUnequalKeys := by
  obtain ⟨hkeys, want, found, hasked, hthere, htakes, _⟩ := h
  refine everywhere_dict.2 ⟨hsel.self.sublist hkeys, fun r hr => ⟨?_, ?_⟩⟩
  · exact ((everywhere_dict.1 hsel).2 _ (hasked r hr)).1
  · obtain ⟨p, hp, _, hfound⟩ := mem_of_at? (hthere r hr)
    have hvalue : (found r).Everywhere HasUnequalKeys :=
      hfound ▸ ((everywhere_dict.1 hsource).2 p hp).2
    exact hvalues _ (hasked r hr) _ _ hvalue (htakes r hr)

theorem Takes.hasUnequalKeys {want found n : Node} (hwant : want.Everywhere HasUnequalKeys)
    (hfound : found.Everywhere HasUnequalKeys) (h : Takes want found n) :
    n.Everywhere HasUnequalKeys := by
  induction want using induct_want generalizing found n with
  | whole want hne =>
    obtain ⟨_, rfl⟩ := (takes_iff_of_ne hne).1 h
    exact hfound
  | part e t p sel ih =>
    obtain ⟨e', u, ps, rs, rfl, rfl, hrs⟩ := takes_dict_iff.1 h
    exact hrs.hasUnequalKeys hfound hwant fun q hq _ _ =>
      ih q hq (hwant.child (snd_mem_entryNodes hq))

/-! ## Projections -/

/-- A projection is the one restriction of its source that the selector asks for. Projecting it
again changes nothing, and a dict is its own projection through itself. -/
theorem project_restricts_and_idem {s sel : Dict} {e : Expiry}
    (hs : (s.toNode e).Everywhere HasUnequalKeys)
    (hsel : (sel.toNode e).Everywhere HasUnequalKeys) :
    IsRestriction s sel (s.project sel) ∧
    (∀ r, IsRestriction s sel r → r = s.project sel) ∧
    (s.project sel).project sel = s.project sel ∧
    (((s.project sel).project sel).toNode e).eqv ((s.project sel).toNode e) = true ∧
    s.project s = s ∧
    ((s.project s).toNode e).eqv (s.toNode e) = true := by
  have hrestricts : Restricts s.entries sel.entries (s.project sel).entries :=
    (restricts_iff hsel).2 rfl
  have hidem : (s.project sel).project sel = s.project sel :=
    congrArg (Dict.mk s.tag) (projectEntries_idem hsel s.entries)
  have hself : s.project s = s := congrArg (Dict.mk s.tag) (projectEntries_self hs)
  have hkeys : ((s.project sel).toNode e).Everywhere HasUnequalKeys :=
    hrestricts.hasUnequalKeys hs hsel fun _ hq _ _ =>
      Takes.hasUnequalKeys (hsel.child (snd_mem_entryNodes hq))
  refine ⟨⟨rfl, hrestricts⟩, ?_, hidem, ?_, hself, ?_⟩
  · rintro ⟨t, rs⟩ ⟨rfl, h⟩
    exact congrArg (Dict.mk s.tag) ((restricts_iff hsel).1 h)
  · rw [hidem]
    exact eqv_refl (hkeys.mono fun _ h => h.distinct)
  · rw [hself]
    exact eqv_refl (hs.mono fun _ h => h.distinct)

/-- A dict with a text, a tagged dict and a dict in a dict. -/
def profile : Dict :=
  ⟨"profile", [(ofString "name", ofString "Ada"),
    (ofString "keys", .dict none "ring" [(ofString "old", ofBlob [1])]),
    (ofString "seen",
      .dict none "" [(ofString "at", ofString "noon"), (ofString "by", ofString "x")])]⟩

/-- A selector of a dict by its tag, of one entry of another, and of a text where there is none. -/
def glimpse : Dict :=
  ⟨"", [(ofString "seen", .dict none "any" [(ofString "by", ofString "")]),
    (ofString "keys", .dict none "ring" []), (ofString "age", ofString "")]⟩

theorem project_restricts_and_idem_profile :
    IsRestriction profile glimpse (profile.project glimpse) ∧
    (∀ r, IsRestriction profile glimpse r → r = profile.project glimpse) ∧
    (profile.project glimpse).project glimpse = profile.project glimpse ∧
    (((profile.project glimpse).project glimpse).toNode none).eqv
      ((profile.project glimpse).toNode none) = true ∧
    profile.project profile = profile ∧
    ((profile.project profile).toNode none).eqv (profile.toNode none) = true :=
  project_restricts_and_idem (by decide) (by decide)

example : profile.project glimpse = ⟨"profile",
    [(ofString "seen", .dict none "" [(ofString "by", ofString "x")]),
      (ofString "keys", .dict none "ring" [(ofString "old", ofBlob [1])])]⟩ := rfl

end Dict

end PeerRecords
