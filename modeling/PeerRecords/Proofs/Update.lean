import PeerRecords.Proofs.Node.Distinct

/-
  What an update carries over.
  `Updated` lists the ways in which an update succeeds. What holds of the nodes of both sides, and
  of every update of a value on the old side by one on the new, holds of the entries that come out
  (`forall_of_updateEntries`). `everywhere_update` is the use made of it: a property of single nodes
  that an update keeps at the root holds throughout the updated document. Whether an update succeeds
  goes by the heads of the two nodes (`Fits`) and by their entries (`Fits.exists_update_iff`).
-/

namespace PeerRecords

open Node

namespace Node

theorem withExpiry_expiry (n : Node) : n.withExpiry n.expiry = n := by cases n <;> rfl

/-- The node with the later of its own and another node's expiration. -/
def refreshedBy (m n : Node) : Node := m.withExpiry (Expiry.combine m.expiry n.expiry)

@[simp] theorem eqv_refreshedBy_left (m n x : Node) : (m.refreshedBy n).eqv x = m.eqv x :=
  eqv_withExpiry_left _ m x

@[simp] theorem eqv_refreshedBy_right (m n x : Node) : x.eqv (m.refreshedBy n) = x.eqv m :=
  eqv_withExpiry_right _ x m

end Node

/-! ## Lists that are refreshed -/

namespace NodeSet

theorem refresh_cons (n m : Node) (ms : List Node) :
    refresh n (m :: ms) = if m.eqv n then m.refreshedBy n :: ms else m :: refresh n ms := rfl

theorem refreshAll_cons (old : List Node) (n : Node) (new : List Node) :
    refreshAll old (n :: new) = refreshAll (refresh n old) new := rfl

/-- What is there stays there when a node is taken in, but for its expiration. -/
theorem exists_mem_refresh {m : Node} (n : Node) {ns : List Node} (hm : m ∈ ns) :
    ∃ e, m.withExpiry e ∈ refresh n ns := by
  induction ns with
  | nil => exact absurd hm List.not_mem_nil
  | cons x ns ih =>
    rw [refresh_cons]
    split
    · obtain rfl | hm := List.mem_cons.1 hm
      · exact ⟨_, List.mem_cons_self⟩
      · exact ⟨m.expiry, by rw [withExpiry_expiry]; exact List.mem_cons_of_mem _ hm⟩
    · obtain rfl | hm := List.mem_cons.1 hm
      · exact ⟨m.expiry, by rw [withExpiry_expiry]; exact List.mem_cons_self⟩
      · obtain ⟨e, he⟩ := ih hm
        exact ⟨e, List.mem_cons_of_mem _ he⟩

theorem exists_mem_refreshAll {m : Node} {old : List Node} (hm : m ∈ old) (new : List Node) :
    ∃ e, m.withExpiry e ∈ refreshAll old new := by
  induction new generalizing m old with
  | nil => exact ⟨m.expiry, by rw [withExpiry_expiry]; exact hm⟩
  | cons n new ih =>
    obtain ⟨e, he⟩ := exists_mem_refresh n hm
    obtain ⟨d, hd⟩ := ih he
    exact ⟨d, by rwa [withExpiry_withExpiry] at hd⟩

/-- A node that is taken in is there afterwards, or one is that is equal to it. -/
theorem exists_mem_refresh_self (n : Node) (ns : List Node) :
    ∃ m ∈ refresh n ns, m = n ∨ m.eqv n = true := by
  induction ns with
  | nil => exact ⟨n, List.mem_cons_self, .inl rfl⟩
  | cons x ns ih =>
    rw [refresh_cons]
    split
    · rename_i hx
      exact ⟨_, List.mem_cons_self, .inr ((eqv_refreshedBy_left x n n).trans hx)⟩
    · obtain ⟨m, hm, hmn⟩ := ih
      exact ⟨m, List.mem_cons_of_mem _ hm, hmn⟩

/-- What a list is refreshed with is there afterwards but for its expiration, or a node is that is
equal to it. -/
theorem exists_mem_refreshAll_of_mem {n : Node} {new : List Node} (hn : n ∈ new)
    (old : List Node) :
    ∃ m ∈ refreshAll old new, (∃ e, m = n.withExpiry e) ∨ m.eqv n = true := by
  induction new generalizing old with
  | nil => exact absurd hn List.not_mem_nil
  | cons x new ih =>
    obtain rfl | hn := List.mem_cons.1 hn
    · obtain ⟨m, hm, hmn⟩ := exists_mem_refresh_self n old
      obtain ⟨e, he⟩ := exists_mem_refreshAll hm new
      refine ⟨_, he, hmn.imp (fun hmn => ⟨e, by rw [hmn]⟩) fun hmn => ?_⟩
      rwa [eqv_withExpiry_left]
    · exact ih hn (refresh x old)

end NodeSet

/-! ## Entries -/

theorem Entries.foldIn_cons (k v : Node) (step : Node → Except Error Node) (p : Node × Node)
    (ps : List (Node × Node)) : foldIn k v step (p :: ps) =
      if p.1.eqv k then step p.2 >>= fun w => .ok ((p.1.refreshedBy k, w) :: ps)
      else foldIn k v step ps >>= fun qs => .ok (p :: qs) := rfl

theorem Entries.forall_of_foldIn {Q : Node → Prop} (hQ : ∀ e n, Q n → Q (n.withExpiry e))
    {k v : Node} {step : Node → Except Error Node} {ps qs : List (Node × Node)}
    (h : foldIn k v step ps = .ok qs) (hps : ∀ c ∈ entryNodes ps, Q c) (hk : Q k) (hv : Q v)
    (hstep : ∀ old w, Q old → step old = .ok w → Q w) : ∀ c ∈ entryNodes qs, Q c := by
  induction ps generalizing qs with
  | nil =>
    cases h
    simpa [entryNodes] using ⟨hk, hv⟩
  | cons p ps ih =>
    have hp := hps p.1 (fst_mem_entryNodes List.mem_cons_self)
    have hpv := hps p.2 (snd_mem_entryNodes List.mem_cons_self)
    have hrest : ∀ c ∈ entryNodes ps, Q c := fun c hc =>
      hps c (List.mem_cons_of_mem _ (List.mem_cons_of_mem _ hc))
    have hcons : ∀ {q : Node × Node} {rs}, Q q.1 → Q q.2 → (∀ c ∈ entryNodes rs, Q c) →
        ∀ c ∈ entryNodes (q :: rs), Q c := by
      intro q rs hq hqv hrs
      exact List.forall_mem_cons.2 ⟨hq, List.forall_mem_cons.2 ⟨hqv, hrs⟩⟩
    unfold foldIn at h
    split at h
    · obtain ⟨w, hw, h⟩ := bind_eq_ok.1 h
      cases h
      exact hcons (hQ _ _ hp) (hstep _ _ hpv hw) hrest
    · obtain ⟨rs, hrs, h⟩ := bind_eq_ok.1 h
      cases h
      exact hcons hp hpv (ih hrs hrest)

namespace Node

theorem updateEntries_cons (ps qs : List (Node × Node)) (q : Node × Node) :
    updateEntries ps (q :: qs) =
      Entries.foldIn q.1 q.2 (fun old => old.update q.2) ps >>= fun us => updateEntries us qs := rfl

theorem forall_of_updateEntries {Q : Node → Prop} (hQ : ∀ e n, Q n → Q (n.withExpiry e))
    {ps qs rs : List (Node × Node)} (h : updateEntries ps qs = .ok rs)
    (hps : ∀ c ∈ entryNodes ps, Q c) (hqs : ∀ c ∈ entryNodes qs, Q c)
    (hstep : ∀ q ∈ qs, ∀ old w, Q old → update old q.2 = .ok w → Q w) :
    ∀ c ∈ entryNodes rs, Q c := by
  induction qs generalizing ps with
  | nil =>
    cases h
    exact hps
  | cons q qs ih =>
    obtain ⟨k, v⟩ := q
    rw [updateEntries] at h
    obtain ⟨us, hus, h⟩ := bind_eq_ok.1 h
    have hk := hqs k (fst_mem_entryNodes (p := (k, v)) List.mem_cons_self)
    have hv := hqs v (snd_mem_entryNodes (p := (k, v)) List.mem_cons_self)
    refine ih h ?_ (fun c hc => hqs c (List.mem_cons_of_mem _ (List.mem_cons_of_mem _ hc)))
      fun q hq => hstep q (List.mem_cons_of_mem _ hq)
    exact Entries.forall_of_foldIn hQ hus hps hk hv (hstep (k, v) List.mem_cons_self)

/-- The ways in which an update succeeds. -/
inductive Updated : Node → Node → Node → Prop where
  | leaf (e e' : Expiry) {v v' : Leaf} (h : v.kind = v'.kind) :
    Updated (.leaf e v) (.leaf e' v') (.leaf (Expiry.combine e e') v')
  | dict (e e' : Expiry) (t t' : String) {ps qs rs : List (Node × Node)}
      (h : updateEntries ps qs = .ok rs) :
    Updated (.dict e t ps) (.dict e' t' qs) (.dict (Expiry.combine e e') t rs)
  | set (e e' : Expiry) (t : String) (es fs : List Node) :
    Updated (.set e t es) (.set e' t fs)
      (.set (Expiry.combine e e') t (NodeSet.refreshAll es fs))
  | predicate (e e' : Expiry) (t t' nt nt' : String) (as bs : List Node)
      {ps qs rs : List (Node × Node)} (h : updateEntries ps qs = .ok rs) :
    Updated (.predicate e t as nt ps) (.predicate e' t' bs nt' qs)
      (.predicate (Expiry.combine e e') t (NodeSet.refreshAll as bs) nt rs)
  | identity (e e' : Expiry) {i i' j : Identity} (hi : Identity.update i i' = .ok j)
      {us us' rs : List (Node × Node)} (h : updateEntries us us' = .ok rs) :
    Updated (.identity e i us) (.identity e' i' us') (.identity (Expiry.combine e e') j rs)
  | claim (e e' : Expiry) (a : Assurance) (b b' : PeerId) (s s' : Node) (g g' : List UInt8)
      {us us' rs : List (Node × Node)} (h : updateEntries us us' = .ok rs) :
    Updated (.claim e a b s g us) (.claim e' a b' s' g' us')
      (.claim (Expiry.combine e e') a b' s' g' rs)
  | verify (e e' : Expiry) (s s' : Node) {us us' rs : List (Node × Node)}
      (h : updateEntries us us' = .ok rs) :
    Updated (.verify e s us) (.verify e' s' us') (.verify (Expiry.combine e e') s' rs)
  | reachable (e e' : Expiry) (m m' : ProbeMode) (vt ut : String) (vs vs' uvs uvs' : List Node)
      {us us' rs : List (Node × Node)} (h : updateEntries us us' = .ok rs) :
    Updated (.reachable e m vt vs ut uvs us) (.reachable e' m' vt vs' ut uvs' us')
      (.reachable (Expiry.combine e e') m' vt (NodeSet.refreshAll vs vs') ut
        (outstanding (NodeSet.refreshAll vs vs') (NodeSet.refreshAll uvs uvs')) rs)

theorem checkTags_eq_ok {t u : String} {x : Unit} (h : checkTags t u = .ok x) : t = u := by
  unfold checkTags at h
  split at h
  · assumption
  · cases h

/-- An update that succeeds does so in one of the ways of `Updated`. -/
theorem updated_of_update {a b r : Node} (h : a.update b = .ok r) : Updated a b r := by
  cases b with
  | leaf e' v' =>
    cases a with
    | leaf e v =>
      rw [update] at h
      split at h
      · cases h
        exact .leaf e e' (by assumption)
      · cases h
    | _ => cases h
  | dict e' t' qs =>
    cases a with
    | dict e t ps =>
      rw [update] at h
      obtain ⟨rs, hrs, h⟩ := bind_eq_ok.1 h
      cases h
      exact .dict e e' t t' hrs
    | _ => cases h
  | set e' t' fs =>
    cases a with
    | set e t es =>
      rw [update] at h
      obtain ⟨_, ht, h⟩ := bind_eq_ok.1 h
      cases h
      obtain rfl := checkTags_eq_ok ht
      exact .set e e' t es fs
    | _ => cases h
  | predicate e' t' bs nt' qs =>
    cases a with
    | predicate e t as nt ps =>
      rw [update] at h
      obtain ⟨rs, hrs, h⟩ := bind_eq_ok.1 h
      cases h
      exact .predicate e e' t t' nt nt' as bs hrs
    | _ => cases h
  | identity e' i' us' =>
    cases a with
    | identity e i us =>
      rw [update] at h
      obtain ⟨j, hj, h⟩ := bind_eq_ok.1 h
      obtain ⟨rs, hrs, h⟩ := bind_eq_ok.1 h
      cases h
      exact .identity e e' hj hrs
    | _ => cases h
  | claim e' a' b' s' g' us' =>
    cases a with
    | claim e a b s g us =>
      rw [update] at h
      split at h
      · rename_i ha
        subst ha
        obtain ⟨rs, hrs, h⟩ := bind_eq_ok.1 h
        cases h
        exact .claim e e' a b b' s s' g g' hrs
      · cases h
    | _ => cases h
  | verify e' s' us' =>
    cases a with
    | verify e s us =>
      rw [update] at h
      obtain ⟨rs, hrs, h⟩ := bind_eq_ok.1 h
      cases h
      exact .verify e e' s s' hrs
    | _ => cases h
  | reachable e' m' vt' vs' ut' uvs' us' =>
    cases a with
    | reachable e m vt vs ut uvs us =>
      rw [update] at h
      obtain ⟨_, hvt, h⟩ := bind_eq_ok.1 h
      obtain ⟨_, hut, h⟩ := bind_eq_ok.1 h
      obtain ⟨rs, hrs, h⟩ := bind_eq_ok.1 h
      cases h
      obtain rfl := checkTags_eq_ok hvt
      obtain rfl := checkTags_eq_ok hut
      exact .reachable e e' m m' vt ut vs vs' uvs uvs' hrs
    | _ => cases h

theorem checkTags_self (t : String) : checkTags t t = .ok () := if_pos rfl

/-- An update in one of the ways of `Updated` succeeds. -/
theorem Updated.update_eq_ok {a b r : Node} (h : Updated a b r) : a.update b = .ok r := by
  cases h with
  | leaf e e' h => rw [update, if_pos h]
  | dict e e' t t' h => rw [update, h]; rfl
  | set e e' t es fs => rw [update, checkTags_self]; rfl
  | predicate e e' t t' nt nt' as bs h => rw [update, h]; rfl
  | identity e e' hi h => rw [update, hi, h]; rfl
  | claim e e' a b b' s s' g g' h => rw [update, if_pos rfl, h]; rfl
  | verify e e' s s' h => rw [update, h]; rfl
  | reachable e e' m m' vt ut vs vs' uvs uvs' h =>
    rw [update, checkTags_self, checkTags_self, h]
    rfl

namespace Updated

variable {a b r : Node}

/-- The entries of an update are folded in, whatever node they are of. -/
theorem fields (h : Updated a b r) : updateEntries a.fields b.fields = .ok r.fields := by
  cases h with
  | leaf e e' h => rfl
  | set e e' t es fs => rfl
  | dict e e' t t' h => exact h
  | predicate e e' t t' nt nt' as bs h => exact h
  | identity e e' hi h => exact h
  | claim e e' x y y' s s' g g' h => exact h
  | verify e e' s s' h => exact h
  | reachable e e' m m' vt ut vs vs' uvs uvs' h => exact h

/-- What holds of the children of both sides, whatever their expirations, and of the keys and values
of the updated node holds of all its children. -/
theorem forall_child_of_entries {Q : Node → Prop} (hQ : ∀ e n, Q n → Q (n.withExpiry e))
    (h : Updated a b r) (ha : ∀ c ∈ a.children, Q c) (hb : ∀ c ∈ b.children, Q c)
    (hentries : ∀ c ∈ entryNodes r.fields, Q c) : ∀ c ∈ r.children, Q c := by
  have hlists : ∀ {es fs : List Node}, (∀ c ∈ es, c ∈ a.children) → (∀ c ∈ fs, c ∈ b.children) →
      ∀ c ∈ NodeSet.refreshAll es fs, Q c := fun hes hfs =>
    NodeSet.forall_mem_refreshAll hQ (fun c hc => ha c (hes c hc)) fun c hc => hb c (hfs c hc)
  cases h with
  | leaf e e' h => exact hentries
  | dict e e' t t' h => exact hentries
  | set e e' t es fs => exact hlists (fun _ => id) fun _ => id
  | predicate e e' t t' nt nt' as bs h =>
    exact List.forall_mem_append.2
      ⟨hlists (fun _ => List.mem_append_left _) fun _ => List.mem_append_left _, hentries⟩
  | identity e e' hi h => exact hentries
  | claim e e' x y y' s s' g g' h =>
    exact List.forall_mem_cons.2 ⟨hb s' List.mem_cons_self, hentries⟩
  | verify e e' s s' h => exact List.forall_mem_cons.2 ⟨hb s' List.mem_cons_self, hentries⟩
  | reachable e e' m m' vt ut vs vs' uvs uvs' h =>
    have hverified : ∀ c ∈ NodeSet.refreshAll vs vs', Q c :=
      hlists (fun c hc => by simp [children, hc]) fun c hc => by simp [children, hc]
    have hunverified : ∀ c ∈ NodeSet.refreshAll uvs uvs', Q c :=
      hlists (fun c hc => by simp [children, hc]) fun c hc => by simp [children, hc]
    exact List.forall_mem_append.2 ⟨List.forall_mem_append.2
      ⟨hverified, fun c hc => hunverified c (List.mem_filter.1 hc).1⟩, hentries⟩

/-- What holds of the children of both sides, whatever their expirations, and of every update by a
child of the new side, holds of the children of the updated node. -/
theorem forall_child {Q : Node → Prop} (hQ : ∀ e n, Q n → Q (n.withExpiry e))
    (h : Updated a b r) (ha : ∀ c ∈ a.children, Q c) (hb : ∀ c ∈ b.children, Q c)
    (hstep : ∀ c ∈ b.children, ∀ old w, Q old → update old c = .ok w → Q w) :
    ∀ c ∈ r.children, Q c :=
  h.forall_child_of_entries hQ ha hb (forall_of_updateEntries hQ h.fields
    (fun c hc => ha c (entryNodes_fields_subset a hc))
    (fun c hc => hb c (entryNodes_fields_subset b hc))
    fun q hq => hstep q.2 (snd_mem_children hq))

end Updated

/-- A property of single nodes that an update keeps at the root holds throughout an updated
document. -/
theorem everywhere_update {P : Node → Prop} (hP : ∀ e n, P n → P (n.withExpiry e))
    (hroot : ∀ {a b r : Node}, Updated a b r → P a → P b → P r) {a b r : Node}
    (ha : a.Everywhere P) (hb : b.Everywhere P) (h : a.update b = .ok r) : r.Everywhere P := by
  induction b using induct_children generalizing a r with
  | step b ih =>
    have hr := updated_of_update h
    refine everywhere_iff.2 ⟨hroot hr ha.self hb.self, ?_⟩
    exact hr.forall_child (fun e n hn => hn.withExpiry hP e) (fun c hc => ha.child hc)
      (fun c hc => hb.child hc) fun c hc old w hold hw => ih c hc hold (hb.child hc) hw

end Node

/-! ## Entries under a map -/

section

variable {f g : Node → Node}

/-- Folding an entry in commutes with a map `g` of keys that keeps equality and refreshing, and a
map `f` of values that the step commutes with. -/
theorem Entries.map_foldIn (hg : ∀ a b : Node, (g a).eqv (g b) = a.eqv b)
    (hrefresh : ∀ a b : Node, g (a.withExpiry (Expiry.combine a.expiry b.expiry)) =
      (g a).withExpiry (Expiry.combine (g a).expiry (g b).expiry))
    {k v : Node} {step step' : Node → Except Error Node}
    (hstep : ∀ a, (step a).map f = step' (f a)) (ps : List (Node × Node)) :
    (foldIn k v step ps).map (List.map (Prod.map g f)) =
      foldIn (g k) (f v) step' (ps.map (Prod.map g f)) := by
  induction ps with
  | nil => rfl
  | cons p ps ih =>
    rw [foldIn, List.map_cons, foldIn, Prod.map_fst, Prod.map_snd, hg]
    split
    · rw [← hstep, ← hrefresh]
      cases step p.2 <;> rfl
    · rw [← ih]
      cases foldIn k v step ps <;> rfl

theorem Node.map_updateEntries (hg : ∀ a b : Node, (g a).eqv (g b) = a.eqv b)
    (hrefresh : ∀ a b : Node, g (a.withExpiry (Expiry.combine a.expiry b.expiry)) =
      (g a).withExpiry (Expiry.combine (g a).expiry (g b).expiry))
    {qs : List (Node × Node)}
    (hstep : ∀ q ∈ qs, ∀ a, (update a q.2).map f = update (f a) (f q.2))
    (ps : List (Node × Node)) :
    (updateEntries ps qs).map (List.map (Prod.map g f)) =
      updateEntries (ps.map (Prod.map g f)) (qs.map (Prod.map g f)) := by
  induction qs generalizing ps with
  | nil => rfl
  | cons q qs ih =>
    obtain ⟨k, v⟩ := q
    have hfold : (Entries.foldIn k v (fun old => update old v) ps).map
        (List.map (Prod.map g f)) =
        Entries.foldIn (g k) (f v) (fun old => update old (f v)) (ps.map (Prod.map g f)) :=
      Entries.map_foldIn hg hrefresh (hstep (k, v) List.mem_cons_self) ps
    have hrest := ih fun q hq => hstep q (List.mem_cons_of_mem _ hq)
    rw [updateEntries, List.map_cons, Prod.map_apply, updateEntries, ← hfold]
    cases Entries.foldIn k v (fun old => update old v) ps with
    | error e => rfl
    | ok rs => exact hrest rs

end

/-! ## Nodes that fit together -/

namespace Identity

/-- One identity can be replaced by the other: a record keeps its key and a peer its id. -/
inductive Fits : Identity → Identity → Prop where
  | record (key : String) : Fits (.record key) (.record key)
  | peer (id : PeerId) : Fits (.peer id) (.peer id)
  | cid (value value' : String) : Fits (.cid value) (.cid value')
  | multiaddress (addr addr' : Multiaddr) : Fits (.multiaddress addr) (.multiaddress addr')

theorem Fits.symm {i j : Identity} (h : Fits i j) : Fits j i := by
  cases h <;> constructor

theorem Fits.trans {i j k : Identity} (hij : Fits i j) (hjk : Fits j k) : Fits i k := by
  cases hij <;> cases hjk <;> constructor

theorem Fits.update_eq_ok {i j : Identity} (h : Fits i j) : i.update j = .ok j := by
  cases h <;> simp [Identity.update]

theorem fits_of_update {i j x : Identity} (h : i.update j = .ok x) : Fits i j ∧ x = j := by
  unfold Identity.update at h
  split at h
  · split at h <;> cases h
    subst_vars
    exact ⟨.record _, rfl⟩
  · split at h <;> cases h
    subst_vars
    exact ⟨.peer _, rfl⟩
  · cases h
    exact ⟨.cid _ _, rfl⟩
  · cases h
    exact ⟨.multiaddress _ _, rfl⟩
  · cases h

end Identity

namespace Node

/-- One node can be updated by the other, but for what their entries say. -/
inductive Fits : Node → Node → Prop where
  | leaf (e e' : Expiry) {v v' : Leaf} (h : v.kind = v'.kind) : Fits (.leaf e v) (.leaf e' v')
  | dict (e e' : Expiry) (t t' : String) (ps qs : List (Node × Node)) :
    Fits (.dict e t ps) (.dict e' t' qs)
  | set (e e' : Expiry) (t : String) (es fs : List Node) : Fits (.set e t es) (.set e' t fs)
  | predicate (e e' : Expiry) (t t' nt nt' : String) (as bs : List Node)
      (ps qs : List (Node × Node)) : Fits (.predicate e t as nt ps) (.predicate e' t' bs nt' qs)
  | identity (e e' : Expiry) {i i' : Identity} (h : i.Fits i') (us us' : List (Node × Node)) :
    Fits (.identity e i us) (.identity e' i' us')
  | claim (e e' : Expiry) (a : Assurance) (p p' : PeerId) (s s' : Node) (g g' : List UInt8)
      (us us' : List (Node × Node)) : Fits (.claim e a p s g us) (.claim e' a p' s' g' us')
  | verify (e e' : Expiry) (s s' : Node) (us us' : List (Node × Node)) :
    Fits (.verify e s us) (.verify e' s' us')
  | reachable (e e' : Expiry) (m m' : ProbeMode) (vt ut : String) (vs vs' uvs uvs' : List Node)
      (us us' : List (Node × Node)) :
    Fits (.reachable e m vt vs ut uvs us) (.reachable e' m' vt vs' ut uvs' us')

theorem Fits.symm {a b : Node} (h : Fits a b) : Fits b a := by
  cases h with
  | leaf e e' h => exact .leaf e' e h.symm
  | identity e e' h us us' => exact .identity e' e h.symm us' us
  | _ => constructor

theorem Fits.trans {a b c : Node} (hab : Fits a b) (hbc : Fits b c) : Fits a c := by
  cases hab with
  | leaf e e' h =>
    cases hbc with
    | leaf _ e'' h' => exact .leaf e e'' (h.trans h')
  | identity e e' h us us' =>
    cases hbc with
    | identity _ e'' h' _ us'' => exact .identity e e'' (h.trans h') us us''
  | _ => cases hbc; constructor

theorem Updated.fits {a b r : Node} (h : Updated a b r) : Fits a b ∧ Fits a r := by
  cases h with
  | leaf e e' h => exact ⟨.leaf e e' h, .leaf e _ h⟩
  | identity e e' hi h =>
    obtain ⟨hfits, rfl⟩ := Identity.fits_of_update hi
    exact ⟨.identity e e' hfits _ _, .identity e _ hfits _ _⟩
  | _ => exact ⟨by constructor, by constructor⟩

/-- Only nodes that fit together are updated in a row, from the left or from the right. -/
theorem fits_of_update_update {a b c v : Node}
    (h : (a.update b >>= fun r => r.update c) = .ok v ∨
      (b.update c >>= fun r => a.update r) = .ok v) : Fits a b ∧ Fits b c := by
  obtain h | h := h
  · obtain ⟨r, hr, h⟩ := bind_eq_ok.1 h
    obtain ⟨hab, har⟩ := (updated_of_update hr).fits
    exact ⟨hab, (hab.symm.trans har).trans (updated_of_update h).fits.1⟩
  · obtain ⟨r, hr, h⟩ := bind_eq_ok.1 h
    obtain ⟨hbc, hbr⟩ := (updated_of_update hr).fits
    exact ⟨(updated_of_update h).fits.1.trans hbr.symm, hbc⟩

/-! ## Updates that fit -/

theorem update_dict (e e' : Expiry) (t t' : String) (ps qs : List (Node × Node)) :
    (dict e t ps).update (dict e' t' qs) =
      updateEntries ps qs >>= fun rs => .ok (dict (Expiry.combine e e') t rs) := by
  rw [update]

theorem update_predicate (e e' : Expiry) (t t' nt nt' : String) (as bs : List Node)
    (ps qs : List (Node × Node)) :
    (predicate e t as nt ps).update (predicate e' t' bs nt' qs) = updateEntries ps qs >>= fun rs =>
      .ok (predicate (Expiry.combine e e') t (NodeSet.refreshAll as bs) nt rs) := by
  rw [update]

theorem update_identity (e e' : Expiry) {i i' : Identity} (h : i.Fits i')
    (us us' : List (Node × Node)) : (identity e i us).update (identity e' i' us') =
      updateEntries us us' >>= fun rs => .ok (identity (Expiry.combine e e') i' rs) := by
  rw [update, h.update_eq_ok]
  rfl

theorem update_claim (e e' : Expiry) (x : Assurance) (p p' : PeerId) (s s' : Node)
    (g g' : List UInt8) (us us' : List (Node × Node)) :
    (claim e x p s g us).update (claim e' x p' s' g' us') =
      updateEntries us us' >>= fun rs => .ok (claim (Expiry.combine e e') x p' s' g' rs) := by
  rw [update, if_pos rfl]

theorem update_verify (e e' : Expiry) (s s' : Node) (us us' : List (Node × Node)) :
    (verify e s us).update (verify e' s' us') =
      updateEntries us us' >>= fun rs => .ok (verify (Expiry.combine e e') s' rs) := by
  rw [update]

theorem update_reachable (e e' : Expiry) (m m' : ProbeMode) (vt ut : String)
    (vs vs' uvs uvs' : List Node) (us us' : List (Node × Node)) :
    (reachable e m vt vs ut uvs us).update (reachable e' m' vt vs' ut uvs' us') =
      updateEntries us us' >>= fun rs => .ok (reachable (Expiry.combine e e') m' vt
        (NodeSet.refreshAll vs vs') ut
        (outstanding (NodeSet.refreshAll vs vs') (NodeSet.refreshAll uvs uvs')) rs) := by
  rw [update, checkTags_self, checkTags_self]
  rfl

/-- Of two nodes that fit together one is updated by the other when its entries are. -/
theorem Fits.exists_update_iff {a b : Node} (h : a.Fits b) :
    (∃ r, a.update b = .ok r) ↔ ∃ rs, updateEntries a.fields b.fields = .ok rs := by
  have hthen : ∀ {f : List (Node × Node) → Node} {x : Except Error (List (Node × Node))},
      (∃ r, (x >>= fun rs => .ok (f rs)) = .ok r) ↔ ∃ rs, x = .ok rs := by
    intro f x
    cases x with
    | error err => exact ⟨fun ⟨_, h⟩ => (nomatch h), fun ⟨_, h⟩ => (nomatch h)⟩
    | ok rs => exact ⟨fun _ => ⟨rs, rfl⟩, fun _ => ⟨f rs, rfl⟩⟩
  cases h with
  | leaf e e' h =>
    rw [update, if_pos h]
    exact ⟨fun _ => ⟨[], rfl⟩, fun _ => ⟨_, rfl⟩⟩
  | set e e' t es fs =>
    rw [update, checkTags_self]
    exact ⟨fun _ => ⟨[], rfl⟩, fun _ => ⟨_, rfl⟩⟩
  | dict e e' t t' ps qs =>
    rw [update_dict]
    exact hthen
  | predicate e e' t t' nt nt' as bs ps qs =>
    rw [update_predicate]
    exact hthen
  | identity e e' h us us' =>
    rw [update_identity e e' h]
    exact hthen
  | claim e e' x p p' s s' g g' us us' =>
    rw [update_claim]
    exact hthen
  | verify e e' s s' us us' =>
    rw [update_verify]
    exact hthen
  | reachable e e' m m' vt ut vs vs' uvs uvs' us us' =>
    rw [update_reachable]
    exact hthen

end Node

end PeerRecords
