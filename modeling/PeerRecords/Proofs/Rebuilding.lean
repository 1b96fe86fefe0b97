import PeerRecords.Proofs.Node.Timeless
import PeerRecords.Proofs.Rules

/-
  Assembling plain forms.
  `g.Rebuilds ctx silent n` says that the grammar assembles the plain form of `n` to `n` again, but
  for expirations, whatever calls to the probe came before. A node is rebuilt if its parts are:
  there is one lemma for each form of node, and `ends_of_plans` for all predicates whose rule has a
  plan. The plain form of a smart node is such a predicate, in which no field of the user's hides a
  field of the node's own (`layOver_of_reserved`).
-/

namespace PeerRecords

open Node Assembly

namespace Grammar

/-- The grammar assembles the plain form of the node to the node again, but for expirations; if it
is to be silent, without a call to the probe. -/
def Rebuilds (g : Grammar) (ctx : Context) (silent : Prop) (n : Node) : Prop :=
  (g.assemble ctx n.disassemble).Ends silent fun m => m.timeless = n.timeless

/-- The grammar has a rule that comes to the plan for a predicate with these arguments and first
fields, whatever fields follow. -/
def Reads (g : Grammar) (t : String) (as : List Node) (own : List (Node × Node)) (p : Plan) :
    Prop :=
  ∃ rule, g.ruleFor? t = some rule ∧ ∀ ps, rule.Plans as (own ++ ps) p

section

variable {g : Grammar} {ctx : Context} {silent : Prop}

/-! ## Lists -/

theorem ends_assembleAll {ns : List Node} (h : ∀ n ∈ ns, g.Rebuilds ctx silent n) :
    (g.assembleAll ctx (disassembleAll ns)).Ends silent fun ms =>
      timelessAll ms = timelessAll ns := by
  induction ns with
  | nil => exact .pure rfl
  | cons n ns ih =>
    obtain ⟨hn, hns⟩ := List.forall_mem_cons.1 h
    rw [disassembleAll, assembleAll]
    refine hn.bind fun m hm => (ih hns).bind fun ms hms => .pure ?_
    rw [timelessAll, timelessAll, hm, hms]

theorem ends_assembleEntries {reserved : List String} {ps : List (Node × Node)}
    (hreserved : ∀ p ∈ ps, isReserved reserved p.1 = false)
    (h : ∀ c ∈ entryNodes ps, g.Rebuilds ctx silent c) :
    (g.assembleEntries ctx reserved (disassembleEntries ps)).Ends silent fun qs =>
      timelessEntries qs = timelessEntries ps := by
  induction ps with
  | nil => exact .pure rfl
  | cons p ps ih =>
    obtain ⟨k, v⟩ := p
    obtain ⟨hfree, hrest⟩ := List.forall_mem_cons.1 hreserved
    have hk := h k (fst_mem_entryNodes (p := (k, v)) List.mem_cons_self)
    have hv := h v (snd_mem_entryNodes (p := (k, v)) List.mem_cons_self)
    have hps := ih hrest fun c hc => h c (List.mem_cons_of_mem _ (List.mem_cons_of_mem _ hc))
    rw [disassembleEntries, assembleEntries, isReserved_disassemble, hfree,
      if_neg Bool.false_ne_true]
    refine hk.bind fun k' hk' => hv.bind fun v' hv' => hps.bind fun qs hqs => .pure ?_
    rw [timelessEntries, timelessEntries, hk', hv', hqs]

theorem areDistinct_keys_of_timeless_eq {ps qs : List (Node × Node)}
    (h : timelessEntries qs = timelessEntries ps) :
    areDistinct (qs.map (·.1)) = areDistinct (ps.map (·.1)) := by
  have hmap : ∀ rs : List (Node × Node),
      (rs.map (·.1)).map timeless = (timelessEntries rs).map (·.1) := by
    intro rs
    rw [timelessEntries_eq_map, List.map_map, List.map_map]
    rfl
  rw [← areDistinct_map_timeless, hmap, h, ← hmap, areDistinct_map_timeless]

/-- Entries are assembled again, and pass the check of their keys. -/
theorem ends_entries {reserved : List String} {ps : List (Node × Node)}
    {finish : List (Node × Node) → Assembly Node} {P : Node → Prop}
    (hreserved : ∀ p ∈ ps, isReserved reserved p.1 = false)
    (hkeys : areDistinct (ps.map (·.1)) = true) (h : ∀ c ∈ entryNodes ps, g.Rebuilds ctx silent c)
    (hfinish : ∀ qs, timelessEntries qs = timelessEntries ps → (finish qs).Ends silent P) :
    (do
      let qs ← assembleEntries g ctx reserved (disassembleEntries ps)
      let qs ← .ofExcept (Dict.checkKeys qs)
      finish qs : Assembly Node).Ends silent P := by
  refine (ends_assembleEntries hreserved h).bind fun qs hqs => ?_
  have hcheck : Dict.checkKeys qs = .ok qs :=
    Dict.checkKeys_eq_ok_iff.2 ⟨rfl, (areDistinct_keys_of_timeless_eq hqs).trans hkeys⟩
  exact (Ends.ofExcept (P := fun rs => timelessEntries rs = timelessEntries ps) hcheck hqs).bind
    hfinish

theorem assembleEntries_append {reserved : List String} {own : List (Node × Node)}
    (hown : ∀ p ∈ own, isReserved reserved p.1 = true) (ps : List (Node × Node)) :
    g.assembleEntries ctx reserved (own ++ ps) = g.assembleEntries ctx reserved ps := by
  induction own with
  | nil => rfl
  | cons p own ih =>
    obtain ⟨k, v⟩ := p
    rw [List.cons_append, assembleEntries, if_pos (hown (k, v) List.mem_cons_self)]
    exact ih fun q hq => hown q (List.mem_cons_of_mem _ hq)

/-- Fields of the user's that are not reserved are laid behind a node's own. -/
theorem layOver_of_reserved {reserved : List String} {own us : List (Node × Node)}
    (hown : ∀ f ∈ own, isReserved reserved f.1 = true)
    (hus : ∀ u ∈ us, isReserved reserved u.1 = false)
    (hkeys : areDistinct (us.map (·.1)) = true) :
    layOver own (disassembleEntries us) = own ++ disassembleEntries us := by
  refine layOver_eq_append (fun f hf u hu => ?_) (pairwise_keys_disassembleEntries hkeys)
  have hname := hown f hf
  rw [disassembleEntries_eq_map] at hu
  obtain ⟨v, hv, rfl⟩ := List.mem_map.1 hu
  by_contra hsame
  have htext := string?_of_same (Bool.eq_true_of_not_eq_false hsame)
  rw [isReserved, htext, ← isReserved, isReserved_disassemble, hus v hv] at hname
  exact Bool.noConfusion hname

theorem isReserved_claimFields {p : PeerId} {x : List UInt8} :
    ∀ f ∈ claimFields p x, isReserved claimNames f.1 = true := by
  intro f hf
  rcases List.mem_pair.1 hf with rfl | rfl <;> rfl

/-- The user's fields of a claim are laid behind its own. -/
theorem layOver_claimFields {p : PeerId} {x : List UInt8} {us : List (Node × Node)}
    (hus : ∀ u ∈ us, isReserved claimNames u.1 = false)
    (hkeys : areDistinct (us.map (·.1)) = true) :
    layOver (claimFields p x) (disassembleEntries us) = claimFields p x ++ disassembleEntries us :=
  layOver_of_reserved isReserved_claimFields hus hkeys

/-! ## Nodes -/

variable (e : Expiry)

theorem rebuilds_leaf (hg : g.generic = true) (v : Leaf) : g.Rebuilds ctx silent (.leaf e v) := by
  rw [Rebuilds, disassemble, assemble, if_pos hg]
  exact .pure rfl

theorem rebuilds_dict (hg : g.generic = true) (t : String) {ps : List (Node × Node)}
    (hkeys : areDistinct (ps.map (·.1)) = true)
    (h : ∀ c ∈ entryNodes ps, g.Rebuilds ctx silent c) :
    g.Rebuilds ctx silent (.dict e t ps) := by
  rw [Rebuilds, disassemble, assemble, if_pos hg]
  refine ends_entries (fun p _ => isReserved_nil p.1) hkeys h fun qs hqs => .pure ?_
  rw [timeless, timeless, hqs]

theorem rebuilds_set (hg : g.generic = true) (t : String) {es : List Node}
    (hes : areDistinct es = true) (h : ∀ c ∈ es, g.Rebuilds ctx silent c) :
    g.Rebuilds ctx silent (.set e t es) := by
  rw [Rebuilds, disassemble, assemble, if_pos hg]
  refine (ends_assembleAll h).bind fun fs hfs => .pure ?_
  have hdistinct : areDistinct fs = true := by
    rw [timelessAll_eq_map, timelessAll_eq_map] at hfs
    rw [← areDistinct_map_timeless, hfs, areDistinct_map_timeless]
    exact hes
  have hall : fs.foldl NodeSet.addTo [] = fs := NodeSet.addAll_nil hdistinct
  rw [timeless, timeless, hall, hfs]

theorem rebuilds_predicate (hg : g.generic = true) {t : String} (nt : String) {as : List Node}
    {ps : List (Node × Node)} (hrule : g.ruleFor? t = none)
    (hargs : ∀ c ∈ as, g.Rebuilds ctx silent c) (hkeys : areDistinct (ps.map (·.1)) = true)
    (h : ∀ c ∈ entryNodes ps, g.Rebuilds ctx silent c) :
    g.Rebuilds ctx silent (.predicate e t as nt ps) := by
  rw [Rebuilds, disassemble, assemble_of_no_rule hg hrule]
  refine (ends_assembleAll hargs).bind fun bs hbs => ?_
  refine ends_entries (fun p _ => isReserved_nil p.1) hkeys h fun qs hqs => .pure ?_
  rw [timeless, timeless, hbs, hqs]

/-- A predicate whose first fields are the rule's, and whose others are plain forms, is assembled by
the plan of the rule. -/
theorem ends_of_plans (hg : g.generic = true) {t nt : String} {rule : TagRule} {as : List Node}
    {own us : List (Node × Node)} {p : Plan} {P : Node → Prop} (hrule : g.ruleFor? t = some rule)
    (hp : rule.Plans as (own ++ disassembleEntries us) p)
    (hown : ∀ f ∈ own, isReserved p.reserved f.1 = true)
    (hus : ∀ u ∈ us, isReserved p.reserved u.1 = false)
    (hkeys : areDistinct (us.map (·.1)) = true) (h : ∀ c ∈ entryNodes us, g.Rebuilds ctx silent c)
    (hfinish : ∀ vs, timelessEntries vs = timelessEntries us → (p.finish ctx vs).Ends silent P) :
    (g.assemble ctx (.predicate e t as nt (layOver own (disassembleEntries us)))).Ends
      silent P := by
  rw [layOver_of_reserved hown hus hkeys, assemble_of_plans hg hrule hp,
    assembleEntries_append hown]
  exact ends_entries hus hkeys h hfinish

theorem rebuilds_identity (hg : g.generic = true) {id : Identity} {us : List (Node × Node)}
    (hread : g.Reads id.kind.name [ofString id.text] [] (.identity id))
    (hkeys : areDistinct (us.map (·.1)) = true)
    (h : ∀ c ∈ entryNodes us, g.Rebuilds ctx silent c) :
    g.Rebuilds ctx silent (.identity e id us) := by
  obtain ⟨rule, hrule, hp⟩ := hread
  rw [Rebuilds, disassemble]
  refine ends_of_plans e hg hrule (hp _) (by simp) (fun u _ => isReserved_nil u.1) hkeys h
    fun vs hvs => .pure ?_
  rw [timeless, timeless, hvs]

theorem rebuilds_claim (hg : g.generic = true) {a : Assurance} {s : Signature}
    {us : List (Node × Node)}
    (hread : g.Reads a.kind.name [s.statement] (claimFields s.signer s.signature)
      (.claim claimNames a s))
    (hs : s.statement.isPlain = true) (hus : ∀ u ∈ us, isReserved claimNames u.1 = false)
    (hkeys : areDistinct (us.map (·.1)) = true)
    (h : ∀ c ∈ entryNodes us, g.Rebuilds ctx silent c) :
    g.Rebuilds ctx silent (.claim e a s.signer s.statement s.signature us) := by
  obtain ⟨rule, hrule, hp⟩ := hread
  rw [Rebuilds, disassemble, disassemble_of_isPlain hs]
  refine ends_of_plans e hg hrule (hp _) isReserved_claimFields hus hkeys h fun vs hvs => .pure ?_
  rw [timeless, timeless, hvs]

theorem rebuilds_verify (hg : g.generic = true) {s : Node} {us : List (Node × Node)}
    (hread : g.Reads Kind.verify.name [s] [] (.verify s)) (hs : s.isPlain = true)
    (hkeys : areDistinct (us.map (·.1)) = true)
    (h : ∀ c ∈ entryNodes us, g.Rebuilds ctx silent c) :
    g.Rebuilds ctx silent (.verify e s us) := by
  obtain ⟨rule, hrule, hp⟩ := hread
  rw [Rebuilds, disassemble, disassemble_of_isPlain hs]
  refine ends_of_plans e hg hrule (hp _) (by simp) (fun u _ => isReserved_nil u.1) hkeys h
    fun vs hvs => .pure ?_
  rw [timeless, timeless, hvs]

end

end Grammar

end PeerRecords
