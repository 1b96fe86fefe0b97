import PeerRecords.Proofs.Node.Canonical
import PeerRecords.Proofs.Update

/-
  Documents seen through a view.
  A view sees less of expirations and of the digits of numbers than there is (`View`). Through it
  the expirations that are reached by dicts and sets are seen, none inside predicates and smart
  nodes (`through`). Nothing but expirations goes by expirations, and nothing but what is printed by
  the digits of a number: plain forms (`disassemble_through`), equality (`eqv_through_left`),
  canonical bytes (`canonical_through`), the addresses of candidates (`isSettled_through`) and
  updates (`map_through_update`) are the same through a view.
-/

namespace PeerRecords

open Node

/-- What is seen of expirations and of literals. -/
structure View where
  expiry : Expiry → Expiry
  leaf : Leaf → Leaf
  /-- The later of two expirations is seen as the later one. -/
  combine : ∀ a b, expiry (Expiry.combine a b) = Expiry.combine (expiry a) (expiry b)
  /-- A literal is seen as an equal one. -/
  alike : ∀ v, (leaf v).alike v = true

namespace View

/-- The view of what is inside predicates and smart nodes: of no expiration. -/
def inside (w : View) : View := ⟨fun _ => none, w.leaf, fun _ _ => rfl, w.alike⟩

theorem alike_left (w : View) (v u : Leaf) : (w.leaf v).alike u = v.alike u := by
  rw [Bool.eq_iff_iff]
  constructor
  · exact leaf_alike_trans ((leaf_alike_comm v (w.leaf v)).trans (w.alike v))
  · exact leaf_alike_trans (w.alike v)

/-- A literal that is no decimal number is seen as it is. -/
theorem leaf_eq (w : View) {v : Leaf} (hv : v.kind ≠ .float) : w.leaf v = v := by
  have h := w.alike v
  cases v with
  | float d => exact absurd rfl hv
  | _ => cases hw : w.leaf _ <;> simp_all [Leaf.alike]

theorem kind_leaf (w : View) (v : Leaf) : (w.leaf v).kind = v.kind := by
  by_cases hv : v.kind = .float
  · have h := w.alike v
    cases v with
    | float d => cases hw : w.leaf (.float d) <;> simp_all [Leaf.alike, Leaf.kind]
    | _ => cases hv
  · rw [w.leaf_eq hv]

end View

namespace Node

mutual

/-- The document as it is seen through a view. -/
def through : View → Node → Node
  | w, .leaf e v => .leaf (w.expiry e) (w.leaf v)
  | w, .dict e t ps => .dict (w.expiry e) t (throughEntries w ps)
  | w, .set e t es => .set (w.expiry e) t (throughAll w es)
  | w, .predicate e t as nt ps =>
    .predicate (w.expiry e) t (throughAll w.inside as) nt (throughEntries w.inside ps)
  | w, .identity e i us => .identity (w.expiry e) i (throughEntries w.inside us)
  | w, .claim e a b s g us =>
    .claim (w.expiry e) a b (through w.inside s) g (throughEntries w.inside us)
  | w, .verify e s us => .verify (w.expiry e) (through w.inside s) (throughEntries w.inside us)
  | w, .reachable e m vt vs ut uvs us =>
    .reachable (w.expiry e) m vt (throughAll w.inside vs) ut (throughAll w.inside uvs)
      (throughEntries w.inside us)
termination_by structural _ n => n

/-- The nodes of a list as they are seen through a view. -/
def throughAll : View → List Node → List Node
  | _, [] => []
  | w, n :: ns => through w n :: throughAll w ns
termination_by structural _ ns => ns

/-- The entries of a list as they are seen through a view. -/
def throughEntries : View → List (Node × Node) → List (Node × Node)
  | _, [] => []
  | w, (k, v) :: ps => (through w k, through w v) :: throughEntries w ps
termination_by structural _ ps => ps

end

theorem throughAll_eq_map (w : View) (ns : List Node) : throughAll w ns = ns.map (through w) := by
  induction ns with
  | nil => rfl
  | cons n ns ih => rw [throughAll, ih, List.map_cons]

theorem throughEntries_eq_map (w : View) (ps : List (Node × Node)) :
    throughEntries w ps = ps.map (Prod.map (through w) (through w)) := by
  induction ps with
  | nil => rfl
  | cons p ps ih => obtain ⟨k, v⟩ := p; rw [throughEntries, ih, List.map_cons, Prod.map_apply]

theorem through_withExpiry (w : View) (e : Expiry) (n : Node) :
    (n.withExpiry e).through w = (n.through w).withExpiry (w.expiry e) := by
  cases n <;> rfl

theorem expiry_through (w : View) (n : Node) : (n.through w).expiry = w.expiry n.expiry := by
  cases n <;> rfl

theorem string?_through (w : View) (n : Node) : (n.through w).string? = n.string? := by
  cases n with
  | leaf e v =>
    by_cases hv : v.kind = .float
    · have hw := (w.kind_leaf v).trans hv
      rw [through]
      cases v <;> cases h : w.leaf _ <;> simp_all [string?, Leaf.kind]
    · rw [through, w.leaf_eq hv]
      cases v <;> rfl
  | _ => rfl

/-! ## Plain forms and equality -/

theorem same_through_left (w : View) (flip : Bool) (a b : Node) :
    same flip (a.through w) b = same flip a b := by
  have hcovered : ∀ {w : View} {ps : List (Node × Node)},
      (∀ p ∈ ps, (∀ flip b, same flip (p.1.through w) b = same flip p.1 b) ∧
        ∀ flip b, same flip (p.2.through w) b = same flip p.2 b) →
      (∀ qs, covered (throughEntries w ps) qs = covered ps qs) ∧
        ∀ q, answers (throughEntries w ps) q = answers ps q := by
    intro w ps h
    induction ps with
    | nil => exact ⟨fun _ => rfl, fun _ => rfl⟩
    | cons p ps ih =>
      obtain ⟨k, v⟩ := p
      obtain ⟨hk, hv⟩ := h (k, v) List.mem_cons_self
      obtain ⟨hcov, hans⟩ := ih fun p hp => h p (List.mem_cons_of_mem _ hp)
      simp only [throughEntries, covered, answers, hk, hv, hcov, hans]
      exact ⟨fun _ => trivial, fun _ => trivial⟩
  have hcontained : ∀ {w : View} {es : List Node},
      (∀ e ∈ es, ∀ flip b, same flip (e.through w) b = same flip e b) →
      (∀ fs, contained (throughAll w es) fs = contained es fs) ∧
        ∀ f, holds (throughAll w es) f = holds es f := by
    intro w es h
    induction es with
    | nil => exact ⟨fun _ => rfl, fun _ => rfl⟩
    | cons e es ih =>
      have he := h e List.mem_cons_self
      obtain ⟨hcon, hhold⟩ := ih fun x hx => h x (List.mem_cons_of_mem _ hx)
      simp only [throughAll, contained, holds, he, hcon, hhold]
      exact ⟨fun _ => trivial, fun _ => trivial⟩
  have hpointwise : ∀ {w : View} {as bs : List Node} (flip : Bool),
      (∀ a ∈ as, ∀ flip b, same flip (a.through w) b = same flip a b) →
      pointwise flip (throughAll w as) bs = pointwise flip as bs := by
    intro w as bs flip h
    induction as generalizing bs with
    | nil => rfl
    | cons a as ih =>
      cases bs with
      | nil => rfl
      | cons b bs =>
        rw [throughAll, pointwise, pointwise, h a List.mem_cons_self,
          ih fun x hx => h x (List.mem_cons_of_mem _ hx)]
  have hlength : ∀ w (ps : List (Node × Node)), (throughEntries w ps).length = ps.length := by
    intro w ps
    rw [throughEntries_eq_map, List.length_map]
  induction a using Node.induct generalizing w flip b with
  | leaf e v =>
    cases b with
    | leaf e' u => exact w.alike_left v u
    | _ => rfl
  | dict e t ps ih =>
    have hps := hcovered fun p hp =>
      ⟨fun flip b => (ih p hp).1 w flip b, fun flip b => (ih p hp).2 w flip b⟩
    cases b with
    | dict e' u qs => rw [through, same, same, hlength, hps.1, funext hps.2]
    | _ => rfl
  | set e t es ih =>
    have hlen : (throughAll w es).length = es.length := by rw [throughAll_eq_map, List.length_map]
    have hes := hcontained fun e he flip b => ih e he w flip b
    cases b with
    | set e' u fs => rw [through, same, same, hlen, hes.1, funext hes.2]
    | _ => rfl
  | predicate e t as nt ps iha ihp =>
    have hps := hcovered fun p hp =>
      ⟨fun flip b => (ihp p hp).1 w.inside flip b, fun flip b => (ihp p hp).2 w.inside flip b⟩
    cases b with
    | predicate e' u bs nu qs =>
      rw [through, same, same, hlength, hps.1, funext hps.2,
        hpointwise flip fun a ha flip b => iha a ha w.inside flip b]
    | _ => rfl
  | identity e i us ih => cases b <;> rfl
  | claim e a b s g us ihs ihu => cases b <;> rfl
  | verify e s us ihs ihu => cases b <;> rfl
  | reachable e m vt vs ut uvs us ihv ihn ihu => cases b <;> rfl

theorem same_through_right (w : View) (flip : Bool) (a b : Node) :
    same flip a (b.through w) = same flip a b := by
  cases flip with
  | true => rw [(turns a _).1, same_through_left, (turns a b).1]
  | false => rw [(turns a _).2, same_through_left, (turns a b).2]

theorem through_layOver (w : View) (own us : List (Node × Node)) :
    throughEntries w (layOver own us) = layOver (throughEntries w own) (throughEntries w us) := by
  have hput : ∀ (k v : Node) (ps : List (Node × Node)),
      throughEntries w (Entries.put (fun a => same false a k) k v ps) =
        Entries.put (fun a => same false a (k.through w)) (k.through w) (v.through w)
          (throughEntries w ps) := by
    intro k v ps
    induction ps with
    | nil => rfl
    | cons p ps ih =>
      obtain ⟨a, u⟩ := p
      rw [Entries.put, throughEntries, Entries.put, same_through_left, same_through_right]
      split
      · rfl
      · rw [throughEntries, ih]
  induction us using List.reverseRecOn with
  | nil => rfl
  | append_singleton us p ih =>
    have hlast : throughEntries w (us ++ [p]) =
        throughEntries w us ++ [(p.1.through w, p.2.through w)] := by
      simp only [throughEntries_eq_map, List.map_append, List.map_cons, List.map_nil]
      rfl
    rw [hlast, layOver_append_singleton, layOver_append_singleton, hput, ih]

/-- The fields that a smart node adds hold texts and bytes only. -/
theorem through_ofString (w : View) (s : String) : (ofString s).through w.inside = ofString s := by
  rw [ofString, through, View.leaf_eq _ (fun h => by cases h)]
  rfl

theorem through_ofBlob (w : View) (bytes : List UInt8) :
    (ofBlob bytes).through w.inside = ofBlob bytes := by
  rw [ofBlob, through, View.leaf_eq _ (fun h => by cases h)]
  rfl

/-- The plain form is seen as the plain form of what is seen. -/
theorem disassemble_through (w : View) (n : Node) :
    (n.through w).disassemble = n.disassemble.through w := by
  have hall : ∀ {w : View} {ns : List Node},
      (∀ n ∈ ns, (n.through w).disassemble = n.disassemble.through w) →
      disassembleAll (throughAll w ns) = throughAll w (disassembleAll ns) := by
    intro w ns h
    simp only [disassembleAll_eq_map, throughAll_eq_map, List.map_map]
    exact List.map_congr_left h
  have hentries : ∀ {w : View} {ps : List (Node × Node)},
      (∀ p ∈ ps, (p.1.through w).disassemble = p.1.disassemble.through w ∧
        (p.2.through w).disassemble = p.2.disassemble.through w) →
      disassembleEntries (throughEntries w ps) = throughEntries w (disassembleEntries ps) := by
    intro w ps h
    simp only [disassembleEntries_eq_map, throughEntries_eq_map, List.map_map]
    exact List.map_congr_left fun p hp => Prod.ext (h p hp).1 (h p hp).2
  induction n using Node.induct generalizing w with
  | leaf e v => rfl
  | dict e t ps ih =>
    rw [through, disassemble, disassemble, through, hentries fun p hp =>
      ⟨(ih p hp).1 w, (ih p hp).2 w⟩]
  | set e t es ih => rw [through, disassemble, disassemble, through, hall fun n hn => ih n hn w]
  | predicate e t as nt ps iha ihp =>
    rw [through, disassemble, disassemble, through, hall fun n hn => iha n hn w.inside,
      hentries fun p hp => ⟨(ihp p hp).1 w.inside, (ihp p hp).2 w.inside⟩]
  | identity e i us ih =>
    rw [through, disassemble, disassemble, through, through_layOver,
      hentries fun p hp => ⟨(ih p hp).1 w.inside, (ih p hp).2 w.inside⟩, throughAll,
      through_ofString]
    rfl
  | claim e a b s g us ihs ihu =>
    have hfields : throughEntries w.inside (claimFields b g) = claimFields b g := by
      simp only [claimFields, throughEntries, through_ofString, through_ofBlob]
    rw [through, disassemble, disassemble, through, through_layOver,
      hentries fun p hp => ⟨(ihu p hp).1 w.inside, (ihu p hp).2 w.inside⟩, ihs, hfields]
    rfl
  | verify e s us ihs ihu =>
    rw [through, disassemble, disassemble, through, through_layOver,
      hentries fun p hp => ⟨(ihu p hp).1 w.inside, (ihu p hp).2 w.inside⟩, ihs]
    rfl
  | reachable e m vt vs ut uvs us ihv ihn ihu =>
    have hfields : throughEntries w.inside (reachableFields m ut (disassembleAll uvs)) =
        reachableFields m ut (throughAll w.inside (disassembleAll uvs)) := by
      cases uvs with
      | nil => simp only [disassembleAll, reachableFields, List.isEmpty_nil, if_true,
          throughEntries, through_ofString, throughAll]
      | cons c uvs =>
        simp only [disassembleAll, reachableFields, List.isEmpty_cons, Bool.false_eq_true, if_false,
          throughEntries, through_ofString, throughAll, through]
        rfl
    rw [through, disassemble, disassemble, through, through_layOver,
      hentries fun p hp => ⟨(ihu p hp).1 w.inside, (ihu p hp).2 w.inside⟩,
      hall fun n hn => ihv n hn w.inside, hall fun n hn => ihn n hn w.inside, hfields]

@[simp] theorem eqv_through_left (w : View) (a b : Node) : (a.through w).eqv b = a.eqv b := by
  rw [eqv, disassemble_through, same_through_left, eqv]

@[simp] theorem eqv_through_right (w : View) (a b : Node) : a.eqv (b.through w) = a.eqv b := by
  rw [eqv, disassemble_through, same_through_right, eqv]

/-- Documents that are seen alike are equal. -/
theorem eqv_of_through_eq {w : View} {a b : Node} (hb : b.Everywhere HasDistinctKeys)
    (h : a.through w = b.through w) : a.eqv b = true := by
  rw [← eqv_through_left w, h, eqv_through_left]
  exact eqv_refl hb

theorem isIn_through (w : View) (n : Node) (ns : List Node) :
    (n.through w).isIn (ns.map (through w)) = n.isIn ns := by
  simp [isIn, List.any_map, Function.comp_def]

theorem areDistinct_map_through (w : View) (ns : List Node) :
    areDistinct (ns.map (through w)) = areDistinct ns := by
  rw [Bool.eq_iff_iff, areDistinct_iff, areDistinct_iff, List.pairwise_map]
  simp only [eqv_through_left, eqv_through_right]

/-! ## Canonical bytes -/

theorem plainBytes_through (w : View) (n : Node) : plainBytes (n.through w) = plainBytes n := by
  have hall : ∀ {w : View} {ns : List Node},
      (∀ n ∈ ns, plainBytes (n.through w) = plainBytes n) →
      elementBytes (throughAll w ns) = elementBytes ns := by
    intro w ns h
    rw [elementBytes_eq_map, elementBytes_eq_map, throughAll_eq_map, List.map_map]
    exact List.map_congr_left h
  have hentries : ∀ {w : View} {ps : List (Node × Node)},
      (∀ p ∈ ps, plainBytes (p.1.through w) = plainBytes p.1 ∧
        plainBytes (p.2.through w) = plainBytes p.2) →
      entryBytes (throughEntries w ps) = entryBytes ps := by
    intro w ps h
    rw [entryBytes_eq_map, entryBytes_eq_map, throughEntries_eq_map, List.map_map]
    exact List.map_congr_left fun p hp => congrArg₂ (· ++ ·) (h p hp).1 (h p hp).2
  induction n using Node.induct generalizing w with
  | leaf e v => exact leafBytes_eq_of_alike (w.alike v)
  | dict e t ps ih =>
    rw [through, plainBytes, plainBytes, hentries fun p hp => ⟨(ih p hp).1 w, (ih p hp).2 w⟩]
  | set e t es ih => rw [through, plainBytes, plainBytes, hall fun n hn => ih n hn w]
  | predicate e t as nt ps iha ihp =>
    have hlength : (throughAll w.inside as).length = as.length := by
      rw [throughAll_eq_map, List.length_map]
    rw [through, plainBytes, plainBytes, hall fun n hn => iha n hn w.inside, hlength,
      hentries fun p hp => ⟨(ihp p hp).1 w.inside, (ihp p hp).2 w.inside⟩]
  | _ => rfl

/-- What is signed does not go by the view. -/
theorem canonical_through (w : View) (n : Node) : (n.through w).canonical = n.canonical := by
  rw [canonical, disassemble_through, plainBytes_through, canonical]

/-! ## Candidates -/

theorem candidateText?_through (w : View) (n : Node) :
    (n.through w).candidateText? = n.candidateText? := by
  have htext : ∀ n : Node, n.isLeaf = true → n.candidateText? = n.string? := by
    intro n hn
    cases n with
    | leaf e v => cases v <;> rfl
    | _ => cases hn
  cases n with
  | leaf e v =>
    rw [htext (leaf e v) rfl, ← string?_through w]
    exact htext _ rfl
  | predicate e t as nt ps =>
    by_cases ht : t = "multiaddress"
    · subst ht
      cases as with
      | nil => rfl
      | cons a as =>
        cases as with
        | nil => exact string?_through w.inside a
        | cons b as => rfl
    · rw [through]
      unfold candidateText?
      split <;> split <;> simp_all
  | _ => rfl

theorem candidateAddr?_through (w : View) (n : Node) :
    (n.through w).candidateAddr? = n.candidateAddr? := by
  rw [candidateAddr?, candidateAddr?, candidateText?_through]

theorem normalAddress?_through (w : View) (n : Node) :
    (n.through w).normalAddress? = n.normalAddress? := by
  rw [normalAddress?, normalAddress?, candidateAddr?_through]

theorem isSettled_through (w : View) (vs : List Node) (n : Node) :
    (n.through w).isSettled (vs.map (through w)) = n.isSettled vs := by
  unfold isSettled
  rw [normalAddress?_through]
  refine congrArg (fun f => n.normalAddress?.any f) (funext fun addr => ?_)
  rw [isIn, isIn, List.any_map]
  exact congrArg (List.any vs) (funext fun v => eqv_through_left w v (ofString addr))

theorem map_through_outstanding (w : View) (vs us : List Node) :
    (outstanding vs us).map (through w) =
      outstanding (vs.map (through w)) (us.map (through w)) := by
  simp only [outstanding, List.filter_map, Function.comp_def, isSettled_through]

/-! ## Updates -/

theorem through_refreshed (w : View) (a b : Node) :
    (a.withExpiry (Expiry.combine a.expiry b.expiry)).through w =
      (a.through w).withExpiry (Expiry.combine (a.through w).expiry (b.through w).expiry) := by
  rw [through_withExpiry, w.combine, expiry_through, expiry_through]

end Node

namespace NodeSet

theorem map_through_refresh (w : View) (n : Node) (ns : List Node) :
    (refresh n ns).map (through w) = refresh (n.through w) (ns.map (through w)) := by
  induction ns with
  | nil => rfl
  | cons m ms ih =>
    rw [refresh, List.map_cons, refresh, eqv_through_left, eqv_through_right]
    split
    · rw [List.map_cons, through_refreshed]
    · rw [List.map_cons, ih]

theorem map_through_refreshAll (w : View) (old new : List Node) :
    (refreshAll old new).map (through w) =
      refreshAll (old.map (through w)) (new.map (through w)) := by
  unfold refreshAll
  induction new generalizing old with
  | nil => rfl
  | cons n new ih => rw [List.map_cons, List.foldl_cons, List.foldl_cons, ih, map_through_refresh]

theorem map_through_addTo (w : View) (ns : List Node) (n : Node) :
    (addTo ns n).map (through w) = addTo (ns.map (through w)) (n.through w) := by
  unfold addTo
  rw [isIn_through]
  split
  · rfl
  · exact List.map_append

theorem map_through_addAll (w : View) (acc ns : List Node) :
    (ns.foldl addTo acc).map (through w) =
      (ns.map (through w)).foldl addTo (acc.map (through w)) := by
  induction ns generalizing acc with
  | nil => rfl
  | cons n ns ih => rw [List.map_cons, List.foldl_cons, List.foldl_cons, ih, map_through_addTo]

end NodeSet

namespace Node

/-- An update is seen as the update of what is seen. -/
theorem map_through_update (w : View) (a b : Node) :
    (a.update b).map (through w) = (a.through w).update (b.through w) := by
  have hentries : ∀ {w : View} {ps qs : List (Node × Node)},
      (∀ q ∈ qs, ∀ a : Node, (a.update q.2).map (through w) =
        (a.through w).update (q.2.through w)) →
      updateEntries (throughEntries w ps) (throughEntries w qs) =
        (updateEntries ps qs).map (throughEntries w) := by
    intro w ps qs h
    have hmap := map_updateEntries (g := through w) (f := through w) (fun a b => by simp)
      (through_refreshed w) h ps
    rw [throughEntries_eq_map, throughEntries_eq_map, ← hmap]
    exact congrArg (fun f => (updateEntries ps qs).map f) (funext fun rs =>
      (throughEntries_eq_map w rs).symm)
  induction b using Node.induct generalizing w a with
  | leaf e' v' =>
    cases a with
    | leaf e v =>
      rw [through, through, update, update, w.kind_leaf, w.kind_leaf]
      split
      · exact congrArg Except.ok (congrArg (leaf · _) (w.combine e e'))
      · rfl
    | _ => simp [through, update, kind, View.kind_leaf, Except.map]
  | dict e' t' qs ih =>
    cases a with
    | dict e t ps =>
      rw [through, through, update, update, hentries fun q hq a => (ih q hq).2 w a, ← w.combine]
      cases updateEntries ps qs <;> rfl
    | leaf e v => simp [through, update, kind, View.kind_leaf, Except.map]
    | _ => rfl
  | set e' t' fs ih =>
    cases a with
    | set e t es =>
      rw [through, through, update, update, throughAll_eq_map, throughAll_eq_map,
        ← NodeSet.map_through_refreshAll, ← throughAll_eq_map, ← w.combine]
      cases checkTags t t' <;> rfl
    | leaf e v => simp [through, update, kind, View.kind_leaf, Except.map]
    | _ => rfl
  | predicate e' t' bs nt' qs iha ihp =>
    cases a with
    | predicate e t as nt ps =>
      rw [through, through, update, update, hentries fun q hq a => (ihp q hq).2 w.inside a,
        throughAll_eq_map, throughAll_eq_map, ← NodeSet.map_through_refreshAll,
        ← throughAll_eq_map, ← w.combine]
      cases updateEntries ps qs <;> rfl
    | leaf e v => simp [through, update, kind, View.kind_leaf, Except.map]
    | _ => rfl
  | identity e' i' us' ih =>
    cases a with
    | identity e i us =>
      rw [through, through, update, update, hentries fun q hq a => (ih q hq).2 w.inside a,
        ← w.combine]
      cases Identity.update i i' with
      | error x => rfl
      | ok j => cases updateEntries us us' <;> rfl
    | leaf e v => simp [through, update, kind, View.kind_leaf, Except.map]
    | _ => rfl
  | claim e' a' b' s' g' us' ihs ihu =>
    cases a with
    | claim e a b s g us =>
      rw [through, through, update, update, hentries fun q hq a => (ihu q hq).2 w.inside a,
        ← w.combine]
      split
      · cases updateEntries us us' <;> rfl
      · rfl
    | leaf e v => simp [through, update, kind, View.kind_leaf, Except.map]
    | _ => rfl
  | verify e' s' us' ihs ihu =>
    cases a with
    | verify e s us =>
      rw [through, through, update, update, hentries fun q hq a => (ihu q hq).2 w.inside a,
        ← w.combine]
      cases updateEntries us us' <;> rfl
    | leaf e v => simp [through, update, kind, View.kind_leaf, Except.map]
    | _ => rfl
  | reachable e' m' vt' vs' ut' uvs' us' ihv ihn ihu =>
    cases a with
    | reachable e m vt vs ut uvs us =>
      rw [through, through, update, update, hentries fun q hq a => (ihu q hq).2 w.inside a,
        ← w.combine]
      simp only [throughAll_eq_map, ← NodeSet.map_through_refreshAll, ← map_through_outstanding]
      simp only [← throughAll_eq_map]
      cases checkTags vt vt' with
      | error x => rfl
      | ok x =>
        cases checkTags ut ut' with
        | error x => rfl
        | ok x => cases updateEntries us us' <;> rfl
    | leaf e v => simp [through, update, kind, View.kind_leaf, Except.map]
    | _ => rfl

end Node

end PeerRecords
