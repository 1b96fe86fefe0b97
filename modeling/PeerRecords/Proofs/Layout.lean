import PeerRecords.Proofs.Merge.Basic

/-
  What an update makes of two documents.
  Two documents are `Compatible` when they fit together and the values that stand at equal keys are
  compatible in their turn. `update_lays_out` says that compatible documents are just those that can
  be updated, that an update fails with nothing but a mismatch, and how the result lies over the two
  sides (`LaidOut`) at every place that they share (`SharedPlace`): the old tags, the old keys and
  nodes in their order with the unseen new ones behind them (`joined`), at each key the old value,
  the new one or the one updated by the other (`Overlaid`).
-/

namespace PeerRecords

open Node

/-! ## Lists that are refreshed -/

namespace NodeSet

/-- The nodes of a list that are equal to no old one and to none before them. -/
def unseen (old : List Node) : List Node → List Node
  | [] => []
  | n :: ns => if n.isIn old then unseen old ns else n :: unseen (n :: old) ns

/-- The node with the latest of its expiration and those of the nodes that are equal to it. -/
def renewedBy (n : Node) (ns : List Node) : Node := (ns.filter (n.eqv ·)).foldl refreshedBy n

/-- The nodes of a list, each with the latest expiration among the new ones that are equal to it; of
two that are equal the first takes it. -/
def renewed : List Node → List Node → List Node
  | [], _ => []
  | n :: ns, new => renewedBy n new :: renewed ns (new.filter fun m => !n.eqv m)

/-- The old nodes in their order, then the unseen ones, each with the latest of the expirations that
it has on either side. -/
def joined (old new : List Node) : List Node := renewed (old ++ unseen old new) new

theorem renewedBy_cons (n m : Node) (ms : List Node) :
    renewedBy n (m :: ms) = if n.eqv m then renewedBy (n.refreshedBy m) ms else renewedBy n ms := by
  cases h : n.eqv m <;> simp [renewedBy, h]

/-- The first node of a list takes in those that are equal to it, the others the rest. -/
theorem refreshAll_cons_left (n : Node) (ns new : List Node) :
    refreshAll (n :: ns) new = renewedBy n new :: refreshAll ns (new.filter fun m => !n.eqv m) := by
  induction new generalizing n ns with
  | nil => rfl
  | cons m new ih =>
    rw [refreshAll_cons, refresh_cons, renewedBy_cons, List.filter_cons]
    cases h : n.eqv m with
    | true => simpa using ih (n.refreshedBy m) ns
    | false => simpa [refreshAll_cons] using ih n (refresh m ns)

theorem unseen_congr {old old' : List Node} (h : ∀ n : Node, n.isIn old = n.isIn old')
    (new : List Node) : unseen old new = unseen old' new := by
  induction new generalizing old old' with
  | nil => rfl
  | cons m new ih =>
    have hcons : ∀ n : Node, n.isIn (m :: old) = n.isIn (m :: old') := fun n =>
      congrArg (m.eqv n || ·) (h n)
    rw [unseen, unseen, h m, ih h, ih hcons]

theorem unseen_cons_left (n : Node) (old new : List Node) :
    unseen (n :: old) new = unseen old (new.filter fun m => !n.eqv m) := by
  induction new generalizing old with
  | nil => rfl
  | cons m new ih =>
    rw [List.filter_cons]
    cases h : n.eqv m with
    | true =>
      have hin : m.isIn (n :: old) = true := by simp [isIn, h]
      rw [unseen, if_pos hin, ih]
      rfl
    | false =>
      have hin : m.isIn (n :: old) = m.isIn old := by simp [isIn, h]
      have hswap : ∀ x : Node, x.isIn (m :: n :: old) = x.isIn (n :: m :: old) := fun x =>
        Bool.or_left_comm _ _ _
      simp only [Bool.not_false, if_true]
      rw [unseen, unseen, hin, ih old, unseen_congr hswap, ih (m :: old)]

/-- A refresh of nodes that are equal to themselves joins the two lists. -/
theorem refreshAll_eq_joined (old : List Node) {new : List Node}
    (hnew : ∀ n ∈ new, n.eqv n = true) : refreshAll old new = joined old new := by
  -- the old nodes take in what is equal to them, and then each new one does so with what is behind
  -- it
  have hfresh : ∀ k (ms : List Node), ms.length ≤ k → (∀ m ∈ ms, m.eqv m = true) →
      refreshAll [] ms = renewed (unseen [] ms) ms := by
    intro k
    induction k with
    | zero =>
      intro ms hk _
      rw [List.length_eq_zero_iff.1 (Nat.le_zero.1 hk)]
      rfl
    | succ k ih =>
      intro ms hk hms
      cases ms with
      | nil => rfl
      | cons m ms =>
        obtain ⟨hm, hms⟩ := List.forall_mem_cons.1 hms
        have hlength : (ms.filter fun x => !m.eqv x).length ≤ k :=
          (List.length_filter_le _ ms).trans (Nat.le_of_succ_le_succ hk)
        have hself : m.refreshedBy m = m := by
          rw [refreshedBy, Expiry.combine_self, withExpiry_expiry]
        have hrest := ih _ hlength fun x hx => hms x (List.mem_of_mem_filter hx)
        calc refreshAll [] (m :: ms)
          _ = renewedBy m ms :: refreshAll [] (ms.filter fun x => !m.eqv x) :=
            refreshAll_cons_left m [] ms
          _ = renewed (m :: unseen [m] ms) (m :: ms) := by
            rw [hrest, renewed, renewedBy_cons, if_pos hm, hself, List.filter_cons, hm,
              unseen_cons_left]
            rfl
  induction old generalizing new with
  | nil => exact hfresh new.length new le_rfl hnew
  | cons n old ih =>
    rw [refreshAll_cons_left, ih fun m hm => hnew m (List.mem_of_mem_filter hm), joined, joined,
      List.cons_append, renewed, unseen_cons_left]

end NodeSet

/-! ## Entries that are folded in -/

namespace Entries

/-- The new entries lie over the old ones: the keys are joined, and at each key there is what one
side has there if the other has nothing, and the old value updated by the new one if both have. -/
structure Overlaid (ps qs rs : List (Node × Node)) : Prop where
  keys : rs.map (·.1) = NodeSet.joined (ps.map (·.1)) (qs.map (·.1))
  old : ∀ k : Node, k.WellFormed → at? k qs = none → at? k rs = at? k ps
  new : ∀ k : Node, k.WellFormed → at? k ps = none → at? k rs = at? k qs
  both : ∀ k v w : Node, k.WellFormed → at? k ps = some v → at? k qs = some w →
    ∃ r, v.update w = .ok r ∧ at? k rs = some r

section

variable {l w : Node} {step : Node → Except Error Node} {ps us : List (Node × Node)}

/-- An entry can be folded in just if it can be in the value at its key. -/
theorem exists_foldIn_iff :
    (∃ us, foldIn l w step ps = .ok us) ↔ ∀ v, at? l ps = some v → ∃ r, step v = .ok r := by
  induction ps with
  | nil => simp [foldIn, at?, lookup?]
  | cons p ps ih =>
    rw [foldIn_cons, at?_cons]
    split
    · simp only [bind_eq_ok, Option.some.injEq, forall_eq']
      constructor
      · rintro ⟨_, r, hr, _⟩
        exact ⟨r, hr⟩
      · rintro ⟨r, hr⟩
        exact ⟨_, r, hr, rfl⟩
    · simp only [bind_eq_ok, ← ih]
      constructor
      · rintro ⟨_, us, hus, _⟩
        exact ⟨us, hus⟩
      · rintro ⟨us, hus⟩
        exact ⟨_, us, hus, rfl⟩

theorem Keyed.foldIn (hps : Keyed ps) (hl : l.WellFormed) (h : foldIn l w step ps = .ok us) :
    Keyed us := by
  refine ⟨forall_fst_foldIn hps.wellFormed hl h, ?_⟩
  rw [map_fst_foldIn h]
  exact NodeSet.areDistinct_refresh l hps.distinct

/-- What stands at other keys stays. -/
theorem at?_foldIn_of_not_eqv {k : Node} (hk : k.WellFormed) (hl : l.WellFormed)
    (hps : ∀ p ∈ ps, p.1.WellFormed) (hlk : l.eqv k = false) (h : foldIn l w step ps = .ok us) :
    at? k us = at? k ps := by
  induction ps generalizing us with
  | nil =>
    cases h
    rw [at?_cons, hlk]
    rfl
  | cons p ps ih =>
    obtain ⟨hp, hps⟩ := List.forall_mem_cons.1 hps
    rw [foldIn_cons] at h
    split at h
    · rename_i hpl
      obtain ⟨r, _, h⟩ := bind_eq_ok.1 h
      cases h
      have hpk : p.1.eqv k = false := (eqv_congr_left hk hp hl hpl).trans hlk
      rw [at?_cons, at?_cons, eqv_refreshedBy_left, hpk]
      rfl
    · obtain ⟨rs, hrs, h⟩ := bind_eq_ok.1 h
      cases h
      rw [at?_cons, at?_cons, ih hps hrs]

/-- At the key itself stands the entry's value, or what the step makes of the one that was there. -/
theorem at?_foldIn_of_eqv {k : Node} (hk : k.WellFormed) (hl : l.WellFormed)
    (hps : ∀ p ∈ ps, p.1.WellFormed) (hlk : l.eqv k = true) (h : foldIn l w step ps = .ok us) :
    (at? k ps = none → at? k us = some w) ∧
      ∀ v, at? k ps = some v → ∃ r, step v = .ok r ∧ at? k us = some r := by
  induction ps generalizing us with
  | nil =>
    cases h
    rw [at?_cons, if_pos hlk]
    exact ⟨fun _ => rfl, fun v hv => nomatch hv⟩
  | cons p ps ih =>
    obtain ⟨hp, hps⟩ := List.forall_mem_cons.1 hps
    have hsame : p.1.eqv l = p.1.eqv k := eqv_congr_right hp hl hk hlk
    rw [foldIn_cons, hsame] at h
    rw [at?_cons]
    split at h
    · rename_i hpk
      obtain ⟨r, hr, h⟩ := bind_eq_ok.1 h
      cases h
      simp [at?_cons, hpk, hr]
    · rename_i hpk
      obtain ⟨rs, hrs, h⟩ := bind_eq_ok.1 h
      cases h
      rw [if_neg hpk, at?_cons, if_neg hpk]
      exact ih hps hrs

end

end Entries

namespace Node

section

variable {ps qs rs : List (Node × Node)}

/-- Entries can be folded in just if each can be folded in the value at its key. -/
theorem exists_updateEntries_iff (hps : Entries.Keyed ps) (hqs : Entries.Keyed qs) :
    (∃ rs, updateEntries ps qs = .ok rs) ↔
      ∀ q ∈ qs, ∀ v, Entries.at? q.1 ps = some v → ∃ r, v.update q.2 = .ok r := by
  induction qs generalizing ps with
  | nil => simp [updateEntries]
  | cons q qs ih =>
    obtain ⟨⟨hq, hother⟩, hrest⟩ := Entries.keyed_cons_iff.1 hqs
    have hsame : ∀ us, Entries.foldIn q.1 q.2 (fun old => old.update q.2) ps = .ok us →
        ∀ x ∈ qs, Entries.at? x.1 us = Entries.at? x.1 ps := fun us hus x hx =>
      Entries.at?_foldIn_of_not_eqv (hrest.wellFormed x hx) hq hps.wellFormed (hother x hx) hus
    rw [List.forall_mem_cons, ← Entries.exists_foldIn_iff, updateEntries_cons]
    constructor
    · rintro ⟨rs, h⟩
      obtain ⟨us, hus, h⟩ := bind_eq_ok.1 h
      refine ⟨⟨us, hus⟩, fun x hx v hv => ?_⟩
      rw [← hsame us hus x hx] at hv
      exact (ih (hps.foldIn hq hus) hrest).1 ⟨rs, h⟩ x hx v hv
    · rintro ⟨⟨us, hus⟩, h⟩
      obtain ⟨rs, hrs⟩ := (ih (hps.foldIn hq hus) hrest).2 fun x hx v hv =>
        h x hx v (by rw [← hsame us hus x hx]; exact hv)
      exact ⟨rs, bind_eq_ok.2 ⟨us, hus, hrs⟩⟩

theorem at?_updateEntries (hps : Entries.Keyed ps) (hqs : Entries.Keyed qs)
    (h : updateEntries ps qs = .ok rs) {k : Node} (hk : k.WellFormed) :
    (Entries.at? k qs = none → Entries.at? k rs = Entries.at? k ps) ∧
      ∀ w, Entries.at? k qs = some w →
        (Entries.at? k ps = none → Entries.at? k rs = some w) ∧
          ∀ v, Entries.at? k ps = some v → ∃ r, v.update w = .ok r ∧ Entries.at? k rs = some r := by
  induction qs generalizing ps with
  | nil =>
    cases h
    exact ⟨fun _ => rfl, fun w hw => nomatch hw⟩
  | cons q qs ih =>
    obtain ⟨⟨hq, _⟩, hrest⟩ := Entries.keyed_cons_iff.1 hqs
    obtain ⟨us, hus, h⟩ := bind_eq_ok.1 h
    have hlater := ih (hps.foldIn hq hus) hrest h
    rw [Entries.at?_cons]
    cases hqk : q.1.eqv k with
    | true =>
      -- no later key is the same, so what the entry left stands
      have hnone : Entries.at? k qs = none :=
        Entries.at?_eq_none_iff.2 (hqs.forall_tail_ne hk hqk)
      have hhere := Entries.at?_foldIn_of_eqv hk hq hps.wellFormed hqk hus
      simpa [hlater.1 hnone] using hhere
    | false =>
      rw [← Entries.at?_foldIn_of_not_eqv hk hq hps.wellFormed hqk hus]
      simpa using hlater

theorem overlaid_of_updateEntries (hps : Entries.Keyed ps) (hqs : Entries.Keyed qs)
    (h : updateEntries ps qs = .ok rs) : Entries.Overlaid ps qs rs where
  keys := by
    rw [map_fst_updateEntries h]
    exact NodeSet.refreshAll_eq_joined _ (List.forall_mem_map.2 fun q hq =>
      eqv_refl (hqs.wellFormed q hq).distinctKeys)
  old k hk := (at?_updateEntries hps hqs h hk).1
  new k hk hnone := by
    cases hw : Entries.at? k qs with
    | none => rw [(at?_updateEntries hps hqs h hk).1 hw, hnone]
    | some w => exact ((at?_updateEntries hps hqs h hk).2 w hw).1 hnone
  both k v w hk hv hw := ((at?_updateEntries hps hqs h hk).2 w hw).2 v hv

end

/-! ## What fails -/

/-- The computation fails with nothing but a mismatch of two sides. -/
def FailsByMismatch {α : Type} (x : Except Error α) : Prop :=
  ∀ err, x = .error err → ∃ expected found, err = .mismatch expected found

theorem failsByMismatch_ok {α : Type} (x : α) : FailsByMismatch (.ok x : Except Error α) :=
  fun _ h => nomatch h

theorem failsByMismatch_error {α : Type} (expected found : Shape) :
    FailsByMismatch (.error (.mismatch expected found) : Except Error α) := by
  intro err h
  cases h
  exact ⟨expected, found, rfl⟩

theorem FailsByMismatch.bind {α β : Type} {x : Except Error α} {f : α → Except Error β}
    (hx : FailsByMismatch x) (hf : ∀ a, FailsByMismatch (f a)) : FailsByMismatch (x >>= f) := by
  cases x with
  | error err =>
    intro err' h
    cases h
    exact hx err rfl
  | ok a => exact hf a

theorem failsByMismatch_checkTags (t t' : String) : FailsByMismatch (checkTags t t') := by
  unfold checkTags
  split
  · exact failsByMismatch_ok ()
  · exact failsByMismatch_error _ _

theorem failsByMismatch_identity (i j : Identity) : FailsByMismatch (i.update j) := by
  unfold Identity.update
  split
  · split
    · exact failsByMismatch_ok _
    · exact failsByMismatch_error _ _
  · split
    · exact failsByMismatch_ok _
    · exact failsByMismatch_error _ _
  · exact failsByMismatch_ok _
  · exact failsByMismatch_ok _
  · exact failsByMismatch_error _ _

theorem failsByMismatch_updateEntries {ps qs : List (Node × Node)}
    (h : ∀ q ∈ qs, ∀ a : Node, FailsByMismatch (a.update q.2)) :
    FailsByMismatch (updateEntries ps qs) := by
  have hfold : ∀ {k v : Node} {step : Node → Except Error Node},
      (∀ a, FailsByMismatch (step a)) → ∀ ps, FailsByMismatch (Entries.foldIn k v step ps) := by
    intro k v step hstep ps
    induction ps with
    | nil => exact failsByMismatch_ok _
    | cons p ps ih =>
      rw [Entries.foldIn_cons]
      split
      · exact (hstep p.2).bind fun _ => failsByMismatch_ok _
      · exact ih.bind fun _ => failsByMismatch_ok _
  induction qs generalizing ps with
  | nil => exact failsByMismatch_ok ps
  | cons q qs ih =>
    obtain ⟨hq, hqs⟩ := List.forall_mem_cons.1 h
    rw [updateEntries_cons]
    exact (hfold hq ps).bind fun us => ih hqs

/-- An update fails with nothing but a mismatch. -/
theorem failsByMismatch_update (a b : Node) : FailsByMismatch (a.update b) := by
  induction b using induct_children generalizing a with
  | step b ih =>
    have hentries : ∀ ps, FailsByMismatch (updateEntries ps b.fields) := fun ps =>
      failsByMismatch_updateEntries fun q hq a => ih q.2 (snd_mem_children hq) a
    cases b with
    | leaf e' v' =>
      cases a with
      | leaf e v =>
        rw [update]
        split
        · exact failsByMismatch_ok _
        · exact failsByMismatch_error _ _
      | _ => exact failsByMismatch_error _ _
    | dict e' t' qs =>
      cases a with
      | dict e t ps =>
        rw [update]
        exact (hentries ps).bind fun _ => failsByMismatch_ok _
      | _ => exact failsByMismatch_error _ _
    | set e' t' fs =>
      cases a with
      | set e t es =>
        rw [update]
        exact (failsByMismatch_checkTags t t').bind fun _ => failsByMismatch_ok _
      | _ => exact failsByMismatch_error _ _
    | predicate e' t' bs nt' qs =>
      cases a with
      | predicate e t as nt ps =>
        rw [update]
        exact (hentries ps).bind fun _ => failsByMismatch_ok _
      | _ => exact failsByMismatch_error _ _
    | identity e' i' us' =>
      cases a with
      | identity e i us =>
        rw [update]
        exact (failsByMismatch_identity i i').bind fun _ =>
          (hentries us).bind fun _ => failsByMismatch_ok _
      | _ => exact failsByMismatch_error _ _
    | claim e' x' p' s' g' us' =>
      cases a with
      | claim e x p s g us =>
        rw [update]
        split
        · exact (hentries us).bind fun _ => failsByMismatch_ok _
        · exact failsByMismatch_error _ _
      | _ => exact failsByMismatch_error _ _
    | verify e' s' us' =>
      cases a with
      | verify e s us =>
        rw [update]
        exact (hentries us).bind fun _ => failsByMismatch_ok _
      | _ => exact failsByMismatch_error _ _
    | reachable e' m' vt' vs' ut' uvs' us' =>
      cases a with
      | reachable e m vt vs ut uvs us =>
        rw [update]
        exact (failsByMismatch_checkTags vt vt').bind fun _ =>
          (failsByMismatch_checkTags ut ut').bind fun _ =>
            (hentries us).bind fun _ => failsByMismatch_ok _
      | _ => exact failsByMismatch_error _ _

/-! ## Documents that can be updated -/

/-- Two documents fit together, and so do the values that stand at equal keys, at every depth. -/
inductive Compatible : Node → Node → Prop where
  | of_fits {a b : Node} (hfits : a.Fits b)
      (hvalues : ∀ p ∈ a.fields, ∀ q ∈ b.fields, p.1.eqv q.1 = true → Compatible p.2 q.2) :
    Compatible a b

/-- Compatible documents are those that can be updated. -/
theorem exists_update_iff_compatible {a b : Node} (ha : a.WellFormed) (hb : b.WellFormed) :
    (∃ r, a.update b = .ok r) ↔ Compatible a b := by
  induction b using induct_children generalizing a with
  | step b ih =>
    have hentries : (∃ rs, updateEntries a.fields b.fields = .ok rs) ↔
        ∀ p ∈ a.fields, ∀ q ∈ b.fields, p.1.eqv q.1 = true → Compatible p.2 q.2 := by
      have hvalue : ∀ p ∈ a.fields, ∀ q ∈ b.fields,
          ((∃ r, p.2.update q.2 = .ok r) ↔ Compatible p.2 q.2) := fun p hp q hq =>
        ih q.2 (snd_mem_children hq) (ha.child (snd_mem_children hp))
          (hb.child (snd_mem_children hq))
      rw [exists_updateEntries_iff ha.keyed hb.keyed]
      constructor
      · intro h p hp q hq hpq
        have hat := Entries.at?_of_mem ha.keyed hp (hb.keyed.wellFormed q hq) hpq
        exact (hvalue p hp q hq).1 (h q hq p.2 hat)
      · intro h q hq v hv
        obtain ⟨p, hp, hpq, rfl⟩ := Entries.mem_of_at? hv
        exact (hvalue p hp q hq).2 (h p hp q hq hpq)
    constructor
    · rintro ⟨r, hr⟩
      have hupdated := updated_of_update hr
      exact .of_fits hupdated.fits.1 (hentries.1 ⟨r.fields, hupdated.fields⟩)
    · rintro ⟨hfits, hvalues⟩
      exact hfits.exists_update_iff.2 (hentries.2 hvalues)

/-! ## How the result lies over the two sides -/

/-- A result lies over an old and a new node: it keeps the old tags and takes what names or counts
as content from the new node; elements and arguments are joined, and entries lie over each other. -/
inductive LaidOut : Node → Node → Node → Prop where
  | leaf (e e' : Expiry) {v v' : Leaf} (h : v.kind = v'.kind) :
    LaidOut (.leaf e v) (.leaf e' v') (.leaf (Expiry.combine e e') v')
  | dict (e e' : Expiry) (t t' : String) {ps qs rs : List (Node × Node)}
      (h : Entries.Overlaid ps qs rs) :
    LaidOut (.dict e t ps) (.dict e' t' qs) (.dict (Expiry.combine e e') t rs)
  | set (e e' : Expiry) (t : String) (es fs : List Node) :
    LaidOut (.set e t es) (.set e' t fs) (.set (Expiry.combine e e') t (NodeSet.joined es fs))
  | predicate (e e' : Expiry) (t t' nt nt' : String) (as bs : List Node)
      {ps qs rs : List (Node × Node)} (h : Entries.Overlaid ps qs rs) :
    LaidOut (.predicate e t as nt ps) (.predicate e' t' bs nt' qs)
      (.predicate (Expiry.combine e e') t (NodeSet.joined as bs) nt rs)
  | identity (e e' : Expiry) {i i' : Identity} (hi : i.Fits i') {us us' rs : List (Node × Node)}
      (h : Entries.Overlaid us us' rs) :
    LaidOut (.identity e i us) (.identity e' i' us') (.identity (Expiry.combine e e') i' rs)
  | claim (e e' : Expiry) (x : Assurance) (p p' : PeerId) (s s' : Node) (g g' : List UInt8)
      {us us' rs : List (Node × Node)} (h : Entries.Overlaid us us' rs) :
    LaidOut (.claim e x p s g us) (.claim e' x p' s' g' us')
      (.claim (Expiry.combine e e') x p' s' g' rs)
  | verify (e e' : Expiry) (s s' : Node) {us us' rs : List (Node × Node)}
      (h : Entries.Overlaid us us' rs) :
    LaidOut (.verify e s us) (.verify e' s' us') (.verify (Expiry.combine e e') s' rs)
  | reachable (e e' : Expiry) (m m' : ProbeMode) (vt ut : String) (vs vs' uvs uvs' : List Node)
      {us us' rs : List (Node × Node)} (h : Entries.Overlaid us us' rs) :
    LaidOut (.reachable e m vt vs ut uvs us) (.reachable e' m' vt vs' ut uvs' us')
      (.reachable (Expiry.combine e e') m' vt (NodeSet.joined vs vs') ut
        ((NodeSet.joined uvs uvs').filter fun c => !c.isSettled (NodeSet.joined vs vs')) rs)

theorem Updated.laidOut {a b r : Node} (h : Updated a b r) (ha : a.WellFormed)
    (hb : b.WellFormed) : LaidOut a b r := by
  have hentries : Entries.Overlaid a.fields b.fields r.fields :=
    overlaid_of_updateEntries ha.keyed hb.keyed h.fields
  have hjoined : ∀ {es fs : List Node}, (∀ c ∈ fs, c ∈ b.children) →
      NodeSet.refreshAll es fs = NodeSet.joined es fs := fun {es} {fs} hfs =>
    NodeSet.refreshAll_eq_joined es fun c hc => eqv_refl (hb.child (hfs c hc)).distinctKeys
  cases h with
  | leaf e e' h => exact .leaf e e' h
  | dict e e' t t' h => exact .dict e e' t t' hentries
  | set e e' t es fs =>
    have hset : NodeSet.refreshAll es fs = NodeSet.joined es fs := hjoined fun _ hc => hc
    rw [hset]
    exact .set e e' t es fs
  | predicate e e' t t' nt nt' as bs h =>
    have hargs : NodeSet.refreshAll as bs = NodeSet.joined as bs :=
      hjoined fun _ => List.mem_append_left _
    rw [hargs]
    exact .predicate e e' t t' nt nt' as bs hentries
  | identity e e' hi h =>
    obtain ⟨hfits, rfl⟩ := Identity.fits_of_update hi
    exact .identity e e' hfits hentries
  | claim e e' x p p' s s' g g' h => exact .claim e e' x p p' s s' g g' hentries
  | verify e e' s s' h => exact .verify e e' s s' hentries
  | reachable e e' m m' vt ut vs vs' uvs uvs' h =>
    have hverified : NodeSet.refreshAll vs vs' = NodeSet.joined vs vs' :=
      hjoined fun c hc => by simp [children, hc]
    have hunverified : NodeSet.refreshAll uvs uvs' = NodeSet.joined uvs uvs' :=
      hjoined fun c hc => by simp [children, hc]
    rw [hverified, hunverified]
    exact .reachable e e' m m' vt ut vs vs' uvs uvs' hentries

/-- Three nodes stand at one place of an old document, a new one and the result: at the root, or at
a key that all three share in nodes that stand at one place. -/
inductive SharedPlace (a b r : Node) : Node → Node → Node → Prop where
  | root : SharedPlace a b r a b r
  | value {a' b' r' v w x k : Node} (h : SharedPlace a b r a' b' r') (hk : k.WellFormed)
      (hv : Entries.at? k a'.fields = some v) (hw : Entries.at? k b'.fields = some w)
      (hx : Entries.at? k r'.fields = some x) : SharedPlace a b r v w x

/-- At a shared place too the result is an update. -/
theorem SharedPlace.update_eq_ok {a b r v w x : Node} (h : SharedPlace a b r v w x)
    (ha : a.WellFormed) (hb : b.WellFormed) (hr : a.update b = .ok r) :
    v.WellFormed ∧ w.WellFormed ∧ v.update w = .ok x := by
  have hvalue : ∀ {n k y : Node}, n.WellFormed → Entries.at? k n.fields = some y →
      y.WellFormed := fun hn hy => hn.child (Entries.mem_children_of_at? hy)
  induction h with
  | root => exact ⟨ha, hb, hr⟩
  | value _ hk hv hw hx ih =>
    obtain ⟨hold, hnew, hupdate⟩ := ih
    have hentries := overlaid_of_updateEntries hold.keyed hnew.keyed
      (updated_of_update hupdate).fields
    obtain ⟨y, hy, hat⟩ := hentries.both _ _ _ hk hv hw
    obtain rfl := Option.some.inj (hat.symm.trans hx)
    exact ⟨hvalue hold hv, hvalue hnew hw, hy⟩

/-- Of two well-formed documents one can be updated by the other just if they are compatible, an
update that fails does so by a mismatch, and one that succeeds lies over the two sides at every
place that they share. -/
theorem update_lays_out {a b : Node} (ha : a.WellFormed) (hb : b.WellFormed) :
    ((∃ r, a.update b = .ok r) ↔ Compatible a b) ∧
    (∀ err, a.update b = .error err → ∃ expected found, err = .mismatch expected found) ∧
    ∀ r, a.update b = .ok r → ∀ v w x, SharedPlace a b r v w x → LaidOut v w x := by
  refine ⟨exists_update_iff_compatible ha hb, failsByMismatch_update a b, ?_⟩
  intro r hr v w x hplace
  obtain ⟨hv, hw, hx⟩ := hplace.update_eq_ok ha hb hr
  exact (updated_of_update hx).laidOut hv hw

/-- A count and a set of names. -/
def countAndNames (count : Int) (names : List String) : Node :=
  dict none "" [(ofString "count", leaf none (.int count)),
    (ofString "names", set none "" (names.map ofString))]

theorem update_lays_out_countAndNames :
    ((∃ r, (countAndNames 1 ["a", "b"]).update (countAndNames 2 ["c", "a"]) = .ok r) ↔
      Compatible (countAndNames 1 ["a", "b"]) (countAndNames 2 ["c", "a"])) ∧
    (∀ err, (countAndNames 1 ["a", "b"]).update (countAndNames 2 ["c", "a"]) = .error err →
      ∃ expected found, err = .mismatch expected found) ∧
    ∀ r, (countAndNames 1 ["a", "b"]).update (countAndNames 2 ["c", "a"]) = .ok r →
      ∀ v w x, SharedPlace (countAndNames 1 ["a", "b"]) (countAndNames 2 ["c", "a"]) r v w x →
        LaidOut v w x :=
  update_lays_out (by decide) (by decide)

example : (countAndNames 1 ["a", "b"]).update (countAndNames 2 ["c", "a"]) =
    .ok (countAndNames 2 ["a", "b", "c"]) := rfl

end Node

end PeerRecords
