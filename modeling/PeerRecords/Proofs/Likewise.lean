import PeerRecords.Proofs.Node.View
import PeerRecords.Proofs.Rules
import PeerRecords.Proofs.Store.Runs

/-
  Writing documents that look the same.
  What a grammar without rules of its own makes of a document, and whether it makes anything of it,
  goes neither by the expirations in the document nor by how its numbers are written: in contexts
  that ask the probe alike, documents that are the same through a view become documents that are the
  same through it (`IsStock.leads_assemble`). A rule reads of its arguments only what every view
  shows, and so it comes to plans that are the same through the view (`TagRule.Plans.like`). Updates
  go by what is seen as well, and so do reads: writes of documents that look the same succeed alike
  and leave stores that look the same (`Store.looksLike_step`).
-/

namespace PeerRecords

open Node Assembly

/-! ## Reading arguments -/

section

variable {w : View} {as bs : List Node} {ps qs : List (Node × Node)}

theorem namedArgument?_through (name : String) (w : View) (ps : List (Node × Node)) :
    namedArgument? name (throughEntries w ps) = (namedArgument? name ps).map (through w) := by
  have hname : ∀ k : Node, Dict.isText name (k.through w) = Dict.isText name k := by
    intro k
    rw [Dict.isText, string?_through, Dict.isText]
  rw [throughEntries_eq_map]
  simp only [namedArgument?, Entries.lookup?, List.find?_map, Option.map_map, Function.comp_def,
    Prod.map_fst, Prod.map_snd, hname]

/-- Named arguments that look the same look the same one by one. -/
theorem map_namedArgument? (h : throughEntries w ps = throughEntries w qs) (name : String) :
    (namedArgument? name ps).map (through w) = (namedArgument? name qs).map (through w) := by
  rw [← namedArgument?_through, h, namedArgument?_through]

theorem eq_none_of_map_through_eq {a b : Option Node}
    (h : a.map (through w) = b.map (through w)) (ha : a = none) : b = none := by
  rw [ha, Option.map_none, eq_comm, Option.map_eq_none_iff] at h
  exact h

theorem exists_of_map_through_eq {a b : Option Node} {n : Node}
    (h : a.map (through w) = b.map (through w)) (ha : a = some n) :
    ∃ m, b = some m ∧ n.through w = m.through w := by
  rw [ha, Option.map_some, eq_comm, Option.map_eq_some_iff] at h
  obtain ⟨m, hm, hmn⟩ := h
  exact ⟨m, hm, hmn.symm⟩

theorem string?_eq_of_through_eq {a b : Node} (h : a.through w = b.through w) :
    a.string? = b.string? := by
  rw [← string?_through w, h, string?_through]

theorem bind_string?_eq {a b : Option Node} (h : a.map (through w) = b.map (through w)) :
    a.bind string? = b.bind string? := by
  cases ha : a with
  | none => rw [eq_none_of_map_through_eq h ha]
  | some n =>
    obtain ⟨m, rfl, hnm⟩ := exists_of_map_through_eq h ha
    exact string?_eq_of_through_eq hnm

theorem canonical_eq_of_through_eq {a b : Node} (h : a.through w = b.through w) :
    a.canonical = b.canonical := by
  rw [← canonical_through w, h, canonical_through]

/-- Bytes look like bytes. -/
theorem exists_blob_of_through_eq {e : Expiry} {bytes : List UInt8} {n : Node}
    (h : (leaf e (.blob bytes)).through w = n.through w) :
    ∃ e', n = .leaf e' (.blob bytes) := by
  cases n with
  | leaf e' v =>
    have hleaf : w.leaf (.blob bytes) = w.leaf v := (Node.leaf.inj h).2
    rw [w.leaf_eq (v := .blob bytes) (fun hv => by cases hv)] at hleaf
    have hkind : v.kind = .blob := by rw [← w.kind_leaf, ← hleaf]; rfl
    rw [w.leaf_eq (by rw [hkind]; decide)] at hleaf
    exact ⟨e', by rw [← hleaf]⟩
  | _ => cases h

/-- Signatures of statements that look the same. -/
structure Signature.Like (w : View) (s s' : Signature) : Prop where
  signer : s'.signer = s.signer
  statement : s.statement.through w = s'.statement.through w
  signature : s'.signature = s.signature

theorem Signature.Like.verifies {s s' : Signature} (h : s.Like w s') (k : Keyring) :
    s'.verifies k = s.verifies k := by
  rw [Signature.verifies, Signature.verifies, Signature.message, Signature.message, h.signer,
    h.signature, canonical_eq_of_through_eq h.statement]

theorem Signature.Like.create {x y : Node} (h : x.through w = y.through w) (k : Keyring) :
    (Signature.create k x).Like w (.create k y) := by
  refine ⟨rfl, h, ?_⟩
  show k.sign (message k.localPeer y) = k.sign (message k.localPeer x)
  rw [Signature.message, Signature.message, canonical_eq_of_through_eq h]

theorem disassemble_through_eq {x y : Node} (h : x.through w = y.through w) :
    x.disassemble.through w = y.disassemble.through w := by
  rw [← disassemble_through, h, disassemble_through]

theorem singleton_of_throughAll_eq {x : Node} (h : throughAll w [x] = throughAll w bs) :
    ∃ y, bs = [y] ∧ x.through w = y.through w := by
  rw [throughAll_eq_map, throughAll_eq_map, List.map_singleton, eq_comm, List.map_eq_singleton_iff]
    at h
  obtain ⟨y, rfl, hy⟩ := h
  exact ⟨y, rfl, hy.symm⟩

/-- A signature is read alike. -/
theorem ReadsSignature.like {s : Signature} (h : ReadsSignature as ps s)
    (has : throughAll w as = throughAll w bs) (hps : throughEntries w ps = throughEntries w qs) :
    ∃ s', ReadsSignature bs qs s' ∧ s.Like w s' := by
  obtain ⟨x, rfl, hx⟩ := h.statement
  obtain ⟨y, rfl, hxy⟩ := singleton_of_throughAll_eq has
  obtain ⟨e, he⟩ := h.signature
  obtain ⟨n, hn, hlike⟩ := exists_of_map_through_eq (map_namedArgument? hps "signature") he
  obtain ⟨e', rfl⟩ := exists_blob_of_through_eq hlike
  refine ⟨⟨s.signer, y.disassemble, s.signature⟩, ⟨⟨y, rfl, rfl⟩, ?_, h.valid, e', hn⟩,
    rfl, ?_, rfl⟩
  · rw [← bind_string?_eq (map_namedArgument? hps "by")]
    exact h.signer
  · rw [hx]
    exact disassemble_through_eq hxy

theorem readMode_eq (h : throughEntries w ps = throughEntries w qs) :
    readMode ps = readMode qs := by
  have hcheck := map_namedArgument? h "check"
  unfold readMode
  split
  · rename_i hps
    rw [eq_none_of_map_through_eq hcheck hps]
  · rename_i n hps
    obtain ⟨m, hm, hnm⟩ := exists_of_map_through_eq hcheck hps
    simp only [hm, string?_eq_of_through_eq hnm]

/-- The candidates left before are read alike. -/
theorem readRetried_like {cs : List Node} (h : throughEntries w ps = throughEntries w qs)
    (hcs : readRetried ps = .ok cs) :
    ∃ ds, readRetried qs = .ok ds ∧ throughAll w cs = throughAll w ds := by
  have hleft := map_namedArgument? h "unverified"
  unfold readRetried at hcs ⊢
  split at hcs
  · rename_i hps
    cases hcs
    exact ⟨[], by rw [eq_none_of_map_through_eq hleft hps], rfl⟩
  · rename_i e t es hps
    obtain ⟨n, hn, hlike⟩ := exists_of_map_through_eq hleft hps
    cases hcs
    cases n with
    | set e' t' fs => exact ⟨fs, by rw [hn], (Node.set.inj hlike).2.2⟩
    | _ => cases hlike
  · cases hcs

/-! ## Plans -/

/-- Plans that look the same. -/
inductive Plan.Like (w : View) : Plan → Plan → Prop where
  | identity (id : Identity) : Plan.Like w (.identity id) (.identity id)
  | claim (reserved : List String) (a : Assurance) {s s' : Signature} (h : s.Like w s') :
    Plan.Like w (.claim reserved a s) (.claim reserved a s')
  | verify {x y : Node} (h : x.through w = y.through w) : Plan.Like w (.verify x) (.verify y)
  | reachable (probe : Probe) (mode : ProbeMode) {cs ds : List Node}
    (h : throughAll w cs = throughAll w ds) :
    Plan.Like w (.reachable probe mode cs) (.reachable probe mode ds)

theorem Plan.Like.reserved {p q : Plan} (h : p.Like w q) : p.reserved = q.reserved := by
  cases h <;> rfl

/-- Of arguments that look the same a rule makes plans that do. -/
theorem TagRule.Plans.like {rule : TagRule} {p : Plan} (h : rule.Plans as ps p)
    (has : throughAll w.inside as = throughAll w.inside bs)
    (hps : throughEntries w.inside ps = throughEntries w.inside qs) :
    ∃ q, rule.Plans bs qs q ∧ p.Like w.inside q := by
  have hclaim : ∀ {e : Expiry} {nt : String} {as' : List Node} {fields : List (Node × Node)}
      {y : Node}, (predicate e "signed" as' nt fields).through w.inside = y.through w.inside →
      ∃ e' nt' bs' fields', y = .predicate e' "signed" bs' nt' fields' ∧
        throughAll w.inside as' = throughAll w.inside bs' ∧
        throughEntries w.inside fields = throughEntries w.inside fields' := by
    intro e nt as' fields y hy
    cases y with
    | predicate e' t bs' nt' fields' =>
      obtain ⟨-, rfl, hargs, -, hfields⟩ := Node.predicate.inj hy
      exact ⟨e', nt', bs', fields', rfl, hargs, hfields⟩
    | _ => cases hy
  cases h with
  | record hx =>
    obtain ⟨y, rfl, hxy⟩ := singleton_of_throughAll_eq has
    exact ⟨_, .record (string?_eq_of_through_eq hxy ▸ hx), .identity _⟩
  | peer hx hid =>
    obtain ⟨y, rfl, hxy⟩ := singleton_of_throughAll_eq has
    exact ⟨_, .peer (string?_eq_of_through_eq hxy ▸ hx) hid, .identity _⟩
  | cid hx hvalue =>
    obtain ⟨y, rfl, hxy⟩ := singleton_of_throughAll_eq has
    exact ⟨_, .cid (string?_eq_of_through_eq hxy ▸ hx) hvalue, .identity _⟩
  | multiaddress hx haddr =>
    obtain ⟨y, rfl, hxy⟩ := singleton_of_throughAll_eq has
    exact ⟨_, .multiaddress (string?_eq_of_through_eq hxy ▸ hx) haddr, .identity _⟩
  | signed hs =>
    obtain ⟨s', hs', hlike⟩ := hs.like has hps
    exact ⟨_, .signed hs', .claim _ _ hlike⟩
  | sign k x =>
    obtain ⟨y, rfl, hxy⟩ := singleton_of_throughAll_eq has
    exact ⟨_, .sign k y qs, .claim _ _ (.create (disassemble_through_eq hxy) k)⟩
  | accepted hs hk =>
    obtain ⟨y, rfl, hxy⟩ := singleton_of_throughAll_eq has
    obtain ⟨e', nt', bs', fields', rfl, hargs, hfields⟩ := hclaim hxy
    obtain ⟨s', hs', hlike⟩ := hs.like hargs hfields
    exact ⟨_, .accepted hs' (hlike.verifies _ ▸ hk), .claim _ _ hlike⟩
  | refused hs hk =>
    obtain ⟨y, rfl, hxy⟩ := singleton_of_throughAll_eq has
    obtain ⟨e', nt', bs', fields', rfl, hargs, hfields⟩ := hclaim hxy
    obtain ⟨s', hs', hlike⟩ := hs.like hargs hfields
    exact ⟨_, .refused hs' (hlike.verifies _ ▸ hk), .verify (disassemble_through_eq hxy)⟩
  | verified hs hk =>
    obtain ⟨s', hs', hlike⟩ := hs.like has hps
    exact ⟨_, .verified hs' (hlike.verifies _ ▸ hk), .claim _ _ hlike⟩
  | reachable hmode hcs =>
    obtain ⟨ds, hds, hlike⟩ := readRetried_like hps hcs
    refine ⟨_, .reachable (readMode_eq hps ▸ hmode) hds, .reachable _ _ ?_⟩
    rw [throughAll_eq_map, throughAll_eq_map] at has hlike ⊢
    rw [List.map_append, List.map_append, has, hlike]

end

/-! ## Assembling -/

/-- The probe is asked the same in both contexts. -/
structure Context.AsksLike (ctx ctx' : Context) : Prop where
  isLate : ctx.isLate = ctx'.isLate
  writer : ctx.writer = ctx'.writer
  deadline : ctx.deadline = ctx'.deadline

section

variable {w : View} {ctx ctx' : Context}

theorem ask_eq (h : ctx.AsksLike ctx') (probe : Probe) (mode : ProbeMode) (addr : Multiaddr) :
    ask probe ctx mode addr = ask probe ctx' mode addr := by
  rw [ask, ask, h.isLate, h.writer, h.deadline]

/-- Candidates are sorted alike. -/
theorem leads_probeAll (h : ctx.AsksLike ctx') (probe : Probe) (mode : ProbeMode)
    {cs ds : List Node} (hcs : throughAll w.inside cs = throughAll w.inside ds)
    {found found' : List Node × List Node}
    (hverified : found.1.map (through w.inside) = found'.1.map (through w.inside))
    (hunverified : found.2.map (through w.inside) = found'.2.map (through w.inside)) :
    (probeAll probe ctx mode cs found).Leads
      (fun f f' => f.1.map (through w.inside) = f'.1.map (through w.inside) ∧
        f.2.map (through w.inside) = f'.2.map (through w.inside))
      (probeAll probe ctx' mode ds found') := by
  have hadd : ∀ {ns ns' : List Node} {n n' : Node},
      ns.map (through w.inside) = ns'.map (through w.inside) →
      n.through w.inside = n'.through w.inside →
      (NodeSet.addTo ns n).map (through w.inside) =
        (NodeSet.addTo ns' n').map (through w.inside) := by
    intro ns ns' n n' hns hn
    rw [NodeSet.map_through_addTo, NodeSet.map_through_addTo, hns, hn]
  induction cs generalizing ds found found' with
  | nil =>
    cases ds with
    | nil => exact .pure ⟨hverified, hunverified⟩
    | cons d ds => cases hcs
  | cons c cs ih =>
    cases ds with
    | nil => cases hcs
    | cons d ds =>
      obtain ⟨hcd, hrest⟩ := List.cons.inj hcs
      have haddr : c.candidateAddr? = d.candidateAddr? := by
        rw [← candidateAddr?_through w.inside, hcd, candidateAddr?_through]
      have hleft : (NodeSet.addTo found.2 (c.withExpiry ctx.expiry)).map (through w.inside) =
          (NodeSet.addTo found'.2 (d.withExpiry ctx'.expiry)).map (through w.inside) :=
        hadd hunverified (by rw [through_withExpiry, through_withExpiry, hcd]; rfl)
      unfold probeAll
      rw [haddr]
      split
      · exact ih hrest hverified hleft
      · rw [ask_eq h]
        refine (Leads.refl _).bind fun reached reached' heq => ?_
        subst heq
        split
        · exact ih hrest (hadd hverified rfl) hunverified
        · exact ih hrest hverified hleft

/-- Plans that look the same are finished alike. -/
theorem Plan.Like.leads_finish (h : ctx.AsksLike ctx')
    (hexpiry : w.expiry ctx.expiry = w.expiry ctx'.expiry) {p q : Plan} (hpq : p.Like w.inside q)
    {us us' : List (Node × Node)} (hus : throughEntries w.inside us = throughEntries w.inside us') :
    (p.finish ctx us).Leads (fun m m' => m.through w = m'.through w) (q.finish ctx' us') := by
  cases hpq with
  | identity id => exact .pure (by rw [through, through, hexpiry, hus])
  | claim reserved a hs =>
    exact .pure (by rw [through, through, hexpiry, hus, hs.signer, hs.signature, hs.statement])
  | verify hstatement => exact .pure (by rw [through, through, hexpiry, hus, hstatement])
  | reachable probe mode hcs =>
    refine (leads_probeAll h probe mode hcs rfl rfl).bind fun f f' hf => .pure ?_
    rw [through, through, hexpiry, hus]
    simp only [throughAll_eq_map, map_through_outstanding, hf.1, hf.2]

theorem leads_checkKeys {ps qs : List (Node × Node)}
    (h : throughEntries w ps = throughEntries w qs) :
    (Assembly.ofExcept (Dict.checkKeys ps)).Leads
      (fun ps qs => throughEntries w ps = throughEntries w qs)
      (Assembly.ofExcept (Dict.checkKeys qs)) := by
  have hkeys : (ps.map (·.1)).map (through w) = (qs.map (·.1)).map (through w) := by
    have hfst := congrArg (List.map (·.1)) h
    rw [throughEntries_eq_map, throughEntries_eq_map, List.map_map, List.map_map] at hfst
    rw [List.map_map, List.map_map]
    exact hfst
  refine .ofExcept fun rs hrs => ?_
  obtain ⟨rfl, hdistinct⟩ := Dict.checkKeys_eq_ok_iff.1 hrs
  refine ⟨qs, Dict.checkKeys_eq_ok_iff.2 ⟨rfl, ?_⟩, h⟩
  rw [← areDistinct_map_through w, ← hkeys, areDistinct_map_through]
  exact hdistinct

namespace Grammar

variable {g : Grammar}

theorem leads_assembleAll {ns ns' : List Node}
    (hns : throughAll w.inside ns = throughAll w.inside ns')
    (h : ∀ n ∈ ns, ∀ n', n.through w.inside = n'.through w.inside →
      (g.assemble ctx n).Leads (fun m m' => m.through w = m'.through w) (g.assemble ctx' n')) :
    (g.assembleAll ctx ns).Leads (fun ms ms' => throughAll w ms = throughAll w ms')
      (g.assembleAll ctx' ns') := by
  induction ns generalizing ns' with
  | nil =>
    cases ns' with
    | nil => exact .pure rfl
    | cons n' ns' => cases hns
  | cons n ns ih =>
    cases ns' with
    | nil => cases hns
    | cons n' ns' =>
      obtain ⟨hn, hrest⟩ := List.cons.inj hns
      refine (h n List.mem_cons_self n' hn).bind fun m m' hm => ?_
      refine (ih hrest fun x hx => h x (List.mem_cons_of_mem _ hx)).bind fun ms ms' hms => .pure ?_
      rw [throughAll, throughAll, hm, hms]

theorem leads_assembleEntries (reserved : List String) {ps ps' : List (Node × Node)}
    (hps : throughEntries w.inside ps = throughEntries w.inside ps')
    (h : ∀ c ∈ entryNodes ps, ∀ c', c.through w.inside = c'.through w.inside →
      (g.assemble ctx c).Leads (fun m m' => m.through w = m'.through w) (g.assemble ctx' c')) :
    (g.assembleEntries ctx reserved ps).Leads
      (fun qs qs' => throughEntries w qs = throughEntries w qs')
      (g.assembleEntries ctx' reserved ps') := by
  induction ps generalizing ps' with
  | nil =>
    cases ps' with
    | nil => exact .pure rfl
    | cons p' ps' => cases hps
  | cons p ps ih =>
    cases ps' with
    | nil => cases hps
    | cons p' ps' =>
      obtain ⟨k, v⟩ := p
      obtain ⟨k', v'⟩ := p'
      obtain ⟨hp, hrest⟩ := List.cons.inj hps
      obtain ⟨hk, hv⟩ := Prod.mk.inj hp
      have hleads := ih hrest fun c hc => h c (List.mem_cons_of_mem _ (List.mem_cons_of_mem _ hc))
      unfold assembleEntries
      rw [isReserved, isReserved, string?_eq_of_through_eq hk]
      split
      · exact hleads
      · refine (h k List.mem_cons_self k' hk).bind fun k₁ k₂ hk => ?_
        refine (h v (List.mem_cons_of_mem _ List.mem_cons_self) v' hv).bind fun v₁ v₂ hv => ?_
        refine hleads.bind fun qs qs' hqs => .pure ?_
        rw [throughEntries, throughEntries, hk, hv, hqs]

/-- In contexts that ask alike, a grammar without rules of its own makes of documents that look the
same documents that look the same. -/
theorem IsStock.leads_assemble (hg : g.IsStock) (h : ctx.AsksLike ctx')
    (hexpiry : w.expiry ctx.expiry = w.expiry ctx'.expiry) {n n' : Node}
    (hnn : n.through w.inside = n'.through w.inside) :
    (g.assemble ctx n).Leads (fun m m' => m.through w = m'.through w) (g.assemble ctx' n') := by
  induction n using induct_children generalizing w n' with
  | step n ih =>
    refine .of_yields fun m hm => ?_
    obtain ⟨hgeneric, hsmart⟩ := hg.of_yields hm
    -- The parts of dicts and sets are seen as the whole is, those of predicates through the view
    -- inside, in which no expiration differs.
    have hparts : ∀ c ∈ n.children, ∀ c', c.through w.inside = c'.through w.inside →
        (g.assemble ctx c).Leads (fun m m' => m.through w = m'.through w) (g.assemble ctx' c') :=
      fun c hc c' hcc => ih c hc hexpiry hcc
    have hinside : ∀ c ∈ n.children, ∀ c', c.through w.inside = c'.through w.inside →
        (g.assemble ctx c).Leads (fun m m' => m.through w.inside = m'.through w.inside)
          (g.assemble ctx' c') := fun c hc c' hcc => ih c hc rfl hcc
    cases n with
    | leaf e v =>
      cases n' with
      | leaf e' v' =>
        have hv : w.leaf v = w.leaf v' := (Node.leaf.inj hnn).2
        rw [assemble, assemble, if_pos hgeneric, if_pos hgeneric]
        exact .pure (by rw [through, through, hexpiry, hv])
      | _ => cases hnn
    | dict e t ps =>
      cases n' with
      | dict e' t' ps' =>
        obtain ⟨-, rfl, hps⟩ := Node.dict.inj hnn
        rw [assemble, assemble, if_pos hgeneric, if_pos hgeneric]
        refine (leads_assembleEntries [] hps hparts).bind fun qs qs' hqs => ?_
        refine (leads_checkKeys hqs).bind fun rs rs' hrs => .pure ?_
        rw [through, through, hexpiry, hrs]
      | _ => cases hnn
    | set e t es =>
      cases n' with
      | set e' t' es' =>
        obtain ⟨-, rfl, hes⟩ := Node.set.inj hnn
        rw [assemble, assemble, if_pos hgeneric, if_pos hgeneric]
        refine (leads_assembleAll hes hparts).bind fun fs fs' hfs => .pure ?_
        simp only [throughAll_eq_map] at hfs
        rw [through, through, hexpiry, throughAll_eq_map, throughAll_eq_map,
          NodeSet.map_through_addAll, NodeSet.map_through_addAll, hfs]
      | _ => cases hnn
    | predicate e t as nt ps =>
      cases n' with
      | predicate e' t' as' nt' ps' =>
        obtain ⟨-, rfl, has, rfl, hps⟩ := Node.predicate.inj hnn
        have hnamed := fun reserved => leads_assembleEntries reserved hps fun c hc =>
          hinside c (List.mem_append_right _ hc)
        obtain hrule | ⟨rule, p, hrule, hp⟩ := hg.plans_of_yields hm
        · rw [assemble_of_no_rule hgeneric hrule, assemble_of_no_rule hgeneric hrule]
          refine (leads_assembleAll has fun c hc => hinside c (List.mem_append_left _ hc)).bind
            fun bs bs' hbs => (hnamed []).bind fun qs qs' hqs => ?_
          refine (leads_checkKeys hqs).bind fun rs rs' hrs => .pure ?_
          rw [through, through, hexpiry, hbs, hrs]
        · obtain ⟨q, hq, hpq⟩ := hp.like has hps
          rw [assemble_of_plans hgeneric hrule hp, assemble_of_plans hgeneric hrule hq,
            ← hpq.reserved]
          refine (hnamed p.reserved).bind fun qs qs' hqs => ?_
          exact (leads_checkKeys hqs).bind fun rs rs' hrs => hpq.leads_finish h hexpiry hrs
      | _ => cases hnn
    | identity e i us => cases hsmart
    | claim e a b s g us => cases hsmart
    | verify e s us => cases hsmart
    | reachable e m vt vs ut uvs us => cases hsmart

end Grammar

end

/-! ## Writing and reading -/

namespace Store

variable {w : View}

/-- The slots of both stores look the same. -/
def LooksLike (w : View) (s s' : Store) : Prop :=
  ∀ key writer, (s.slot? key writer).map (through w) = (s'.slot? key writer).map (through w)

theorem LooksLike.refl (w : View) (s : Store) : s.LooksLike w s := fun _ _ => rfl

/-- Documents that look the same are folded into a slot alike. -/
theorem folded_like {old : Option Node} {m m' r : Node} (hmm : m.through w = m'.through w)
    (h : folded old m = .ok r) : ∃ r', folded old m' = .ok r' ∧ r.through w = r'.through w := by
  unfold folded at h ⊢
  split at h
  · rename_i a
    have hupdate := map_through_update w a m
    rw [h, hmm, ← map_through_update, eq_comm] at hupdate
    obtain ⟨r', hr', heq⟩ := map_eq_ok.1 hupdate
    exact ⟨r', hr', heq.symm⟩
  · cases h
    exact ⟨m', rfl, hmm⟩

/-- When a document can be written, one that looks the same can be too, with the same calls to the
probe. -/
theorem update_like {s s₁ : Store} (hg : s.grammar.IsStock) {doc doc' : Node}
    (hdoc : doc.through w.inside = doc'.through w.inside) {now : Instant} {writer : PeerId}
    {key : String} {options : WriteOptions}
    (h : (s.update now writer key doc options).1 = .ok s₁) :
    ∃ s₂, s.update now writer key doc' options =
        (.ok s₂, (s.update now writer key doc options).2) ∧ s₁.LooksLike w s₂ := by
  obtain ⟨m, r, hm, ⟨e, t, ps, rfl⟩, hr, rfl⟩ := update_eq_ok h
  obtain ⟨m', hm', hmm⟩ := hg.leads_assemble ⟨rfl, rfl, rfl⟩ rfl hdoc [] _ _ (Prod.ext hm rfl)
  obtain ⟨r', hr', hrr⟩ := folded_like hmm hr
  have hfold : s.foldIn key writer m' = .ok (s.put key writer r') := by
    cases m' with
    | dict e' t' qs =>
      rw [foldIn, hr']
      rfl
    | _ => cases hmm
  have hcalls := congrArg Prod.snd hm'
  refine ⟨s.put key writer r', Prod.ext ?_ hcalls, fun k w => ?_⟩
  · show ((s.grammar.assemble (s.writeContext now writer options) doc').outcome.1.bind _) = _
    rw [outcome, hm']
    exact hfold
  · rw [slot?_put, slot?_put]
    split
    · rw [Option.map_some, Option.map_some, hrr]
    · rfl

/-- Writes of documents that look the same succeed alike. -/
theorem update_ok_iff {s : Store} (hg : s.grammar.IsStock) {doc doc' : Node}
    (hdoc : doc.through w.inside = doc'.through w.inside) (now : Instant) (writer : PeerId)
    (key : String) (options : WriteOptions) :
    (∃ s₁, (s.update now writer key doc options).1 = .ok s₁) ↔
      ∃ s₂, (s.update now writer key doc' options).1 = .ok s₂ := by
  constructor
  · rintro ⟨s₁, h⟩
    obtain ⟨s₂, hs₂, _⟩ := update_like hg hdoc h
    exact ⟨s₂, congrArg Prod.fst hs₂⟩
  · rintro ⟨s₂, h⟩
    obtain ⟨s₁, hs₁, _⟩ := update_like hg hdoc.symm h
    exact ⟨s₁, congrArg Prod.fst hs₁⟩

/-- After writes of documents that look the same stores look the same. -/
theorem looksLike_step {s : Store} (hg : s.grammar.IsStock) {doc doc' : Node}
    (hdoc : doc.through w.inside = doc'.through w.inside) (now : Instant) (writer : PeerId)
    (key : String) (options : WriteOptions) :
    (s.step (.write now writer key doc options)).LooksLike w
      (s.step (.write now writer key doc' options)) := by
  have hok := update_ok_iff hg hdoc now writer key options
  cases h : (s.update now writer key doc options).1 with
  | ok s₁ =>
    obtain ⟨s₂, hs₂, hlike⟩ := update_like hg hdoc h
    rw [step, step, h, hs₂]
    exact hlike
  | error e =>
    cases h' : (s.update now writer key doc' options).1 with
    | ok s₂ =>
      obtain ⟨s₁, hs₁⟩ := hok.2 ⟨s₂, h'⟩
      rw [h] at hs₁
      cases hs₁
    | error e' =>
      rw [step, step, h, h']
      exact .refl w s

theorem get?_get (s : Store) (key : String) (writer : PeerId) :
    (s.get key).get? writer = (s.slot? key writer).bind visible? :=
  Table.get?_filterMap (s.writers key) visible? writer

/-- A reader sees either nothing of both documents, or the plain forms of two dicts that look the
same. -/
theorem rel_visible? {R : Dict → Dict → Prop} {a b : Node}
    (hR : ∀ e e' t ps qs, a = .dict e t ps → b = .dict e' t qs →
      throughEntries w ps = throughEntries w qs →
      R ⟨t, disassembleEntries ps⟩ ⟨t, disassembleEntries qs⟩)
    (h : a.through w = b.through w) : Option.Rel R (visible? a) (visible? b) := by
  cases b with
  | dict e' t qs =>
    cases a with
    | dict e t' ps =>
      obtain ⟨-, rfl, hentries⟩ := Node.dict.inj h
      have hempty : ps.isEmpty = qs.isEmpty := by
        cases ps <;> cases qs <;> first | rfl | cases hentries
      show Option.Rel R (if ps.isEmpty then none else _) (if qs.isEmpty then none else _)
      rw [hempty]
      split
      · exact .none
      · exact .some (hR e e' t' ps qs rfl rfl hentries)
    | _ => cases h
  | _ => cases a <;> first | exact .none | cases h

end Store

end PeerRecords
