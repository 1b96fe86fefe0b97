import PeerRecords.Proofs.Rebuilding
import PeerRecords.Proofs.Retry

/-
  Reading back what was written.
  A document is restorable when its grammar assembles its plain form to the document again, but for
  expirations: `Restorable` says so tag by tag, without assembling anything. The two halves of the
  argument meet there. Whatever a grammar makes of plain documents is restorable
  (`restorable_of_yields`), since a grammar that has rules for the claims it makes comes to the plan
  of a node again when it reads the node's own arguments (`Rereads`), and updates keep it so
  (`Restorable.update`); and the plain form of a restorable document is assembled to it
  (`Restorable.exists_assemble`). Since a document is absorbed by itself, what a reader was told can
  be written back, and changes nothing; that is the main statement, at the end.
-/

namespace PeerRecords

open Node Assembly Grammar

/-- The node is a predicate with one of the tags. -/
def Node.IsTagged (tags : List String) : Node → Prop
  | .predicate _ t _ _ _ => t ∈ tags
  | _ => False

instance (tags : List String) : DecidablePred (Node.IsTagged tags)
  | .predicate _ t _ _ _ => inferInstanceAs (Decidable (t ∈ tags))
  | .leaf _ _ | .dict _ _ _ | .set _ _ _ | .identity _ _ _ | .claim _ _ _ _ _ _ | .verify _ _ _
  | .reachable _ _ _ _ _ _ _ => .isFalse id

/-- A plain document that is read back as it was written: no two keys or elements of it are
equal, no predicate `verify(..)` in it names `by` or `signature`, and it asks for no check of
reachability. -/
structure Node.IsRereadable (n : Node) : Prop where
  plain : n.isPlain = true
  wellFormed : n.WellFormed
  reserving : n.Everywhere IsReserving
  unprobed : n.Everywhere fun v => ¬ v.IsTagged ["reachable"]

namespace Grammar

/-! ## Restorable documents -/

/-- The grammar restores the document from its plain form. A predicate has no rule; a smart node is
what the rule for its own predicate comes to, and no field of the user's hides a field of its
own. -/
inductive Restorable (g : Grammar) : Node → Prop where
  | leaf (e : Expiry) (v : Leaf) : Restorable g (.leaf e v)
  | dict (e : Expiry) (t : String) {ps : List (Node × Node)}
      (hkeys : areDistinct (ps.map (·.1)) = true) (h : ∀ c ∈ entryNodes ps, Restorable g c) :
      Restorable g (.dict e t ps)
  | set (e : Expiry) (t : String) {es : List Node} (hes : areDistinct es = true)
      (h : ∀ c ∈ es, Restorable g c) : Restorable g (.set e t es)
  | predicate (e : Expiry) {t : String} (nt : String) {as : List Node} {ps : List (Node × Node)}
      (hrule : g.ruleFor? t = none) (hargs : ∀ c ∈ as, Restorable g c)
      (hkeys : areDistinct (ps.map (·.1)) = true) (h : ∀ c ∈ entryNodes ps, Restorable g c) :
      Restorable g (.predicate e t as nt ps)
  | identity (e : Expiry) {id : Identity} {us : List (Node × Node)}
      (hread : g.Reads id.kind.name [ofString id.text] [] (.identity id))
      (hkeys : areDistinct (us.map (·.1)) = true) (h : ∀ c ∈ entryNodes us, Restorable g c) :
      Restorable g (.identity e id us)
  | claim (e : Expiry) {a : Assurance} {s : Signature} {us : List (Node × Node)}
      (hread : g.Reads a.kind.name [s.statement] (claimFields s.signer s.signature)
        (.claim claimNames a s))
      (hs : s.statement.isPlain = true) (hus : ∀ u ∈ us, isReserved claimNames u.1 = false)
      (hkeys : areDistinct (us.map (·.1)) = true) (h : ∀ c ∈ entryNodes us, Restorable g c) :
      Restorable g (.claim e a s.signer s.statement s.signature us)
  | verify (e : Expiry) {s : Node} {us : List (Node × Node)}
      (hread : g.Reads Kind.verify.name [s] [] (.verify s)) (hs : s.isPlain = true)
      (hkeys : areDistinct (us.map (·.1)) = true) (h : ∀ c ∈ entryNodes us, Restorable g c) :
      Restorable g (.verify e s us)

section

variable {g : Grammar}

theorem Restorable.withExpiry (e : Expiry) {n : Node} (h : g.Restorable n) :
    g.Restorable (n.withExpiry e) := by
  cases h with
  | leaf _ v => exact .leaf e v
  | dict _ t hkeys h => exact .dict e t hkeys h
  | set _ t hes h => exact .set e t hes h
  | predicate _ nt hrule hargs hkeys h => exact .predicate e nt hrule hargs hkeys h
  | identity _ hread hkeys h => exact .identity e hread hkeys h
  | claim _ hread hs hus hkeys h => exact .claim e hread hs hus hkeys h
  | verify _ hread hs hkeys h => exact .verify e hread hs hkeys h

/-! ## Updates -/

/-- Updates keep documents restorable. A smart node has the newer content, and the fields of both
sides. -/
theorem Restorable.update {a b r : Node} (ha : g.Restorable a) (hb : g.Restorable b)
    (h : a.update b = .ok r) : g.Restorable r := by
  have hentries : ∀ {ps qs rs : List (Node × Node)}, updateEntries ps qs = .ok rs →
      (∀ c ∈ entryNodes ps, g.Restorable c) → (∀ c ∈ entryNodes qs, g.Restorable c) →
      (∀ c ∈ entryNodes qs, ∀ {a r : Node}, g.Restorable a → a.update c = .ok r →
        g.Restorable r) →
      ∀ c ∈ entryNodes rs, g.Restorable c := by
    intro ps qs rs hrs hps hqs ih
    exact forall_of_updateEntries (fun e n hn => hn.withExpiry e) hrs hps hqs
      fun q hq old w hold hw => ih q.2 (snd_mem_entryNodes hq) hold hw
  induction hb generalizing a r with
  | leaf e' v' =>
    cases updated_of_update h with
    | leaf e _ hv => exact .leaf _ v'
  | dict e' t' _ h' ih =>
    cases updated_of_update h with
    | dict e _ t _ hrs =>
      cases ha with
      | dict _ _ hkeys hps =>
        exact .dict _ t (areDistinct_keys_updateEntries hrs hkeys) (hentries hrs hps h' ih)
  | set e' t' _ h' ih =>
    cases updated_of_update h with
    | set e _ _ es fs =>
      cases ha with
      | set _ _ hes hps =>
        exact .set _ t' (NodeSet.areDistinct_refreshAll _ hes)
          (NodeSet.forall_mem_refreshAll (fun e n hn => hn.withExpiry e) hps h')
  | predicate e' nt' _ hargs' _ h' iha ih =>
    cases updated_of_update h with
    | predicate e _ t _ nt _ as _ hrs =>
      cases ha with
      | predicate _ _ hrule hargs hkeys hps =>
        exact .predicate _ nt hrule
          (NodeSet.forall_mem_refreshAll (fun e n hn => hn.withExpiry e) hargs hargs')
          (areDistinct_keys_updateEntries hrs hkeys) (hentries hrs hps h' ih)
  | identity e' hread' _ h' ih =>
    cases updated_of_update h with
    | identity e _ hj hrs =>
      obtain ⟨_, rfl⟩ := Identity.fits_of_update hj
      cases ha with
      | identity _ _ hkeys hps =>
        exact .identity _ hread' (areDistinct_keys_updateEntries hrs hkeys) (hentries hrs hps h' ih)
  | claim e' hread' hs' hus' _ h' ih =>
    cases updated_of_update h with
    | claim e _ _ p _ s _ x _ hrs =>
      cases ha with
      | claim _ _ _ hus hkeys hps =>
        refine .claim _ hread' hs' ?_ (areDistinct_keys_updateEntries hrs hkeys)
          (hentries hrs hps h' ih)
        refine forall_fst_updateEntries (P := fun c => isReserved claimNames c = false) ?_ hrs hus
          hus'
        intro e n hn
        rw [isReserved_withExpiry]
        exact hn
  | verify e' hread' hs' _ h' ih =>
    cases updated_of_update h with
    | verify e _ s _ hrs =>
      cases ha with
      | verify _ _ _ hkeys hps =>
        exact .verify _ hread' hs' (areDistinct_keys_updateEntries hrs hkeys)
          (hentries hrs hps h' ih)

/-! ## Assembling the plain form -/

theorem Restorable.rebuilds (hg : g.generic = true) (ctx : Context) {n : Node}
    (h : g.Restorable n) : g.Rebuilds ctx True n := by
  induction h with
  | leaf e v => exact rebuilds_leaf e hg v
  | dict e t hkeys _ ih => exact rebuilds_dict e hg t hkeys ih
  | set e t hes _ ih => exact rebuilds_set e hg t hes ih
  | predicate e nt hrule _ hkeys _ iha ih => exact rebuilds_predicate e hg nt hrule iha hkeys ih
  | identity e hread hkeys _ ih => exact rebuilds_identity e hg hread hkeys ih
  | claim e hread hs hus hkeys _ ih => exact rebuilds_claim e hg hread hs hus hkeys ih
  | verify e hread hs hkeys _ ih => exact rebuilds_verify e hg hread hs hkeys ih

/-- The plain form of a restorable document is assembled to the document, but for expirations. -/
theorem Restorable.exists_assemble (ctx : Context) (hg : g.generic = true) {n : Node}
    (h : g.Restorable n) : ∃ m, g.assemble ctx n.disassemble = pure m ∧ m.timeless = n.timeless :=
  (h.rebuilds hg ctx).exists_eq_pure

/-! ## What assembly makes -/

/-- The grammar reads the claims that it makes: what it signs, as a peer whose id can be read, and
what it has checked. -/
structure ReadsOwnClaims (g : Grammar) : Prop where
  signed : ∀ k, g.ruleFor? "sign" = some (.sign (some k)) →
    g.ruleFor? "signed" = some .signed ∧ k.localPeer.Valid
  verified : ∀ k, g.ruleFor? "verify" = some (.verify (some k)) →
    g.ruleFor? "verified" = some (.verified (some k))

theorem readsOwnClaims_withKeyring {k : Keyring} (hk : k.localPeer.Valid) :
    (standard.withKeyring k).ReadsOwnClaims where
  signed k' hrule := by
    obtain rfl : k = k' := by
      cases hrule
      rfl
    exact ⟨rfl, hk⟩
  verified k' hrule := by
    cases hrule
    rfl

theorem ruleFor?_withProbe {t : String} (ht : t ≠ "reachable") (probe : Probe) :
    (g.withProbe probe).ruleFor? t = g.ruleFor? t :=
  List.find?_cons_of_neg (by simpa [TagRule.tag] using ht.symm)

theorem ReadsOwnClaims.withProbe (h : g.ReadsOwnClaims) (probe : Probe) :
    (g.withProbe probe).ReadsOwnClaims where
  signed k hrule := by
    rw [ruleFor?_withProbe (by decide)] at hrule ⊢
    exact h.signed k hrule
  verified k hrule := by
    rw [ruleFor?_withProbe (by decide)] at hrule ⊢
    exact h.verified k hrule

theorem readsSignature_claimFields {s : Signature} {x : Node} (hx : s.statement = x.disassemble)
    (hvalid : s.signer.Valid) (ps : List (Node × Node)) :
    ReadsSignature [s.statement] (claimFields s.signer s.signature ++ ps) s where
  statement := ⟨s.statement, rfl, by rw [hx, disassemble_disassemble]⟩
  signer := rfl
  valid := hvalid
  signature := ⟨none, rfl⟩

/-- The grammar reads the own arguments of the node that the plan makes, and comes to the plan
again. -/
inductive Rereads (g : Grammar) : Plan → Prop where
  | identity {id : Identity} (hread : g.Reads id.kind.name [ofString id.text] [] (.identity id)) :
    Rereads g (.identity id)
  | claim (reserved : List String) {a : Assurance} {s : Signature}
      (hread : g.Reads a.kind.name [s.statement] (claimFields s.signer s.signature)
        (.claim claimNames a s))
      (hs : s.statement.isPlain = true) : Rereads g (.claim reserved a s)
  | verify {s : Node} (hread : g.Reads Kind.verify.name [s] [] (.verify s))
      (hs : s.isPlain = true) : Rereads g (.verify s)

/-- A grammar that reads its own claims rereads whatever its rules plan, but for checks of
reachability. -/
theorem rereads_of_plans (hclaims : g.ReadsOwnClaims) {rule : TagRule} {as : List Node}
    {ps : List (Node × Node)} {p : Plan} (hrule : g.ruleFor? rule.tag = some rule)
    (hp : rule.Plans as ps p) (has : ∀ a ∈ as, a.isPlain = true) (htag : rule.tag ≠ "reachable") :
    g.Rereads p := by
  cases hp with
  | record hx => exact .identity ⟨_, hrule, fun ps => .record rfl⟩
  | peer hx hid => exact .identity ⟨_, hrule, fun ps => .peer rfl hid⟩
  | cid hx hvalue => exact .identity ⟨_, hrule, fun ps => .cid rfl hvalue⟩
  | multiaddress hx haddr => exact .identity ⟨_, hrule, fun ps => .multiaddress rfl haddr⟩
  | signed hs =>
    obtain ⟨x, _, hx⟩ := hs.statement
    refine .claim _ ⟨_, hrule, fun ps => ?_⟩ (hx ▸ isPlain_disassemble x)
    exact .signed (readsSignature_claimFields hx hs.valid ps)
  | sign k x =>
    obtain ⟨hsigned, hvalid⟩ := hclaims.signed k hrule
    refine .claim _ ⟨_, hsigned, fun ps => ?_⟩ (isPlain_disassemble x)
    have hsigner : (Signature.create k x.disassemble).signer.Valid := hvalid
    exact .signed (readsSignature_claimFields (x := x) rfl hsigner ps)
  | accepted hs hk =>
    obtain ⟨x, _, hx⟩ := hs.statement
    refine .claim _ ⟨_, hclaims.verified _ hrule, fun ps => ?_⟩ (hx ▸ isPlain_disassemble x)
    exact .verified (readsSignature_claimFields hx hs.valid ps) hk
  | @refused k e nt as fields _ s hs hk =>
    have hplain := has _ List.mem_cons_self
    rw [disassemble_of_isPlain hplain]
    refine .verify ⟨_, hrule, fun ps => ?_⟩ hplain
    have hread : (TagRule.verify (some k)).Plans [.predicate e "signed" as nt fields] ps
        (.verify (disassemble (.predicate e "signed" as nt fields))) := .refused hs hk
    rw [disassemble_of_isPlain hplain] at hread
    exact hread
  | verified hs hk =>
    obtain ⟨x, _, hx⟩ := hs.statement
    refine .claim _ ⟨_, hrule, fun ps => ?_⟩ (hx ▸ isPlain_disassemble x)
    exact .verified (readsSignature_claimFields hx hs.valid ps) hk
  | reachable hmode hcs => exact absurd rfl htag

/-- The user's fields of a claim leave the names of its own arguments alone, if no predicate
`verify(..)` names `by` or `signature`. -/
theorem not_isReserved_of_claim (hg : g.IsStock) {ctx : Context} {e : Expiry} {nt : String}
    {rule : TagRule} {as : List Node} {ps us : List (Node × Node)} {p : Plan}
    (hp : rule.Plans as ps p) (hmade : g.EntriesMade ctx p.reserved ps us)
    (hreserving : IsReserving (.predicate e rule.tag as nt ps)) {reserved : List String}
    {a : Assurance} {s : Signature} (hclaim : p = .claim reserved a s) :
    ∀ u ∈ us, isReserved claimNames u.1 = false := by
  have hfree : ∀ q ∈ ps, isReserved p.reserved q.1 = false → isReserved claimNames q.1 = false := by
    cases hp with
    | signed hs => exact fun _ _ hq => hq
    | sign k x => exact fun _ _ hq => hq
    | verified hs hk => exact fun _ _ hq => hq
    | accepted hs hk => exact fun q hq _ => hreserving q hq
    | _ => cases hclaim
  intro u hu
  obtain ⟨q, hq, hqfree, hk, _⟩ := hmade.mem hu
  exact isReserved_of_yields hg hk (hfree q hq hqfree)

/-- Whatever a grammar makes of a plain document is restorable, if it reads its own claims, no
predicate `verify(..)` names `by` or `signature`, and nothing is checked for reachability. -/
theorem restorable_of_yields (hg : g.IsStock) (hclaims : g.ReadsOwnClaims) {ctx : Context}
    {n m : Node} (hplain : n.isPlain = true) (hreserving : n.Everywhere IsReserving)
    (hprobes : n.Everywhere fun v => ¬ v.IsTagged ["reachable"])
    (h : (g.assemble ctx n).Yields m) : g.Restorable m := by
  induction n using induct_children generalizing m with
  | step n ih =>
    have hchild : ∀ c ∈ n.children, ∀ m, (g.assemble ctx c).Yields m → g.Restorable m :=
      fun c hc m hm => ih c hc ((isPlain_iff_children.1 hplain).2 c hc) (hreserving.child hc)
        (hprobes.child hc) hm
    cases hg.assembled_of_yields h with
    | leaf e v => exact .leaf _ v
    | dict e t hmade => exact .dict _ t hmade.2 (hmade.forall_entryNodes hchild)
    | @set e t es fs hfs =>
      refine .set _ t (NodeSet.areDistinct_addAll fs rfl) fun c hc => ?_
      exact forall_of_forall₂ hfs hchild c ((NodeSet.mem_addAll hc).resolve_left List.not_mem_nil)
    | predicate e nt hrule hargs hmade =>
      exact .predicate _ nt hrule
        (forall_of_forall₂ hargs fun x hx => hchild x (List.mem_append_left _ hx)) hmade.2
        (hmade.forall_entryNodes fun x hx => hchild x (List.mem_append_right _ hx))
    | @planned e nt rule as ps us p m hrule hp hmade hm =>
      have hfree : ∀ {r a s}, p = .claim r a s → ∀ u ∈ us, isReserved claimNames u.1 = false :=
        fun {_ _ _} => not_isReserved_of_claim hg hp hmade hreserving.self
      have hus := hmade.forall_entryNodes fun x hx => hchild x (List.mem_append_right _ hx)
      have has : ∀ a ∈ as, a.isPlain = true :=
        fun a ha => (isPlain_iff_children.1 hplain).2 a (List.mem_append_left _ ha)
      have htag : rule.tag ≠ "reachable" :=
        fun htag => hprobes.self (List.mem_singleton.2 htag)
      cases rereads_of_plans hclaims hrule hp has htag with
      | identity hread =>
        obtain rfl := yields_pure.1 hm
        exact .identity _ hread hmade.2 hus
      | claim _ hread hs =>
        obtain rfl := yields_pure.1 hm
        exact .claim _ hread hs (hfree rfl) hmade.2 hus
      | verify hread hs =>
        obtain rfl := yields_pure.1 hm
        exact .verify _ hread hs hmade.2 hus

/-- No reachability result is restorable, so none of its candidates is in question. -/
theorem Restorable.everywhere_isOutstanding {n : Node} (h : g.Restorable n) :
    n.Everywhere IsOutstanding := by
  have hplain : ∀ {s : Node}, s.isPlain = true → s.Everywhere IsOutstanding := by
    intro s hs
    refine (isPlain_iff.1 hs).mono fun v hv => ?_
    cases v with
    | reachable e m vt vs ut uvs us => cases hv
    | _ => trivial
  induction h with
  | leaf e v => exact everywhere_leaf.2 trivial
  | dict e t _ _ ih => exact everywhere_iff.2 ⟨trivial, ih⟩
  | set e t _ _ ih => exact everywhere_iff.2 ⟨trivial, ih⟩
  | predicate e nt _ _ _ _ iha ih =>
    exact everywhere_iff.2 ⟨trivial, List.forall_mem_append.2 ⟨iha, ih⟩⟩
  | identity e _ _ _ ih => exact everywhere_iff.2 ⟨trivial, ih⟩
  | claim e _ hs _ _ _ ih =>
    exact everywhere_iff.2 ⟨trivial, List.forall_mem_cons.2 ⟨hplain hs, ih⟩⟩
  | verify e _ hs _ _ ih =>
    exact everywhere_iff.2 ⟨trivial, List.forall_mem_cons.2 ⟨hplain hs, ih⟩⟩

end

end Grammar

namespace Store

/-- A settled document takes in what is the same but for expirations, and only expirations
change. -/
theorem exists_update_of_timeless_eq {d m : Node} (hd : d.WellFormed)
    (hout : d.Everywhere IsOutstanding) (h : m.timeless = d.timeless) :
    ∃ r, d.update m = .ok r ∧ r.timeless = d.timeless := by
  have habsorbed : d.timeless.IsAbsorbed := by
    refine isAbsorbed hd.timeless.distinctKeys
      (hd.distinctKeys.timeless fun v _ => expiry_timeless v) ?_
    exact hout.timeless fun v hv => hv.timeless
  refine map_eq_ok.1 ?_
  rw [map_timeless_update, h]
  exact habsorbed.1

theorem restorable_run {g : Grammar} (hg : g.IsStock) (hclaims : g.ReadsOwnClaims)
    (config : StoreSettings) {steps : List Step}
    (hsteps : ∀ a ∈ steps, a.Writes IsRereadable) (hno : ∀ now, .sweep now ∉ steps) :
    ((empty g config).run steps).AllSlots fun d => d.WellFormed ∧ g.Restorable d := by
  refine allSlots_run_of_no_sweep (allSlots_empty _ _ _) ?_ ?_ hsteps hno
  · intro ctx n m hn h
    exact ⟨Grammar.wellFormed_of_yields (hg.upholds _) hn.wellFormed h,
      Grammar.restorable_of_yields hg hclaims hn.plain hn.reserving hn.unprobed h⟩
  · exact fun old new r hold hnew h => ⟨hold.1.update hnew.1 h, hold.2.update hnew.2 h⟩

/-- What a reader is told of a slot is the plain form of the document there. -/
theorem visible?_eq_some {doc : Node} {d : Dict} (h : visible? doc = some d) (e : Expiry) :
    (∃ e' t ps, doc = .dict e' t ps) ∧ d.toNode e = (doc.withExpiry e).disassemble := by
  cases doc with
  | dict e' t ps =>
    unfold visible? at h
    rw [dict?, Option.bind_some] at h
    split at h
    · cases h
    · cases h
      exact ⟨⟨e', t, ps, rfl⟩, rfl⟩
  | _ => cases h

/-- What a reader was told is written back. -/
theorem exists_write_back {s : Store} (hgeneric : s.grammar.generic = true) {key : String}
    {writer : PeerId} {doc : Node} {d : Dict}
    (hdistinct : s.AllSlots fun d => d.Everywhere HasDistinctKeys)
    (hslot : s.slot? key writer = some doc) (hd : visible? doc = some d) (hdoc : doc.WellFormed)
    (hrestorable : s.grammar.Restorable doc) (e : Expiry) (now : Instant) (options : WriteOptions) :
    ∃ s', s.update now writer key (d.toNode e) options = (.ok s', []) ∧ s'.ReadsLike s := by
  obtain ⟨⟨e', t, ps, rfl⟩, hnode⟩ := visible?_eq_some hd e
  obtain ⟨m, hm, htimeless⟩ := (hrestorable.withExpiry e).exists_assemble
    (s.writeContext now writer options) hgeneric
  rw [timeless_withExpiry] at htimeless
  obtain ⟨r, hr, hrd⟩ := exists_update_of_timeless_eq hdoc hrestorable.everywhere_isOutstanding
    htimeless
  refine ⟨s.put key writer r, ?_, readsLike_put hdistinct hslot hrd⟩
  have haccepted : accepted (some (.dict e' t ps)) m = .ok r := by
    cases m with
    | dict e'' t' qs => exact hr
    | _ => cases htimeless
  have hwritten : written s.grammar (s.writeContext now writer options) (some (.dict e' t ps))
      (d.toNode e) = (.ok r, []) := by
    rw [written, hnode, hm]
    exact Prod.ext haccepted rfl
  rw [update_eq, hslot, hwritten]
  rfl

end Store

/-- In every state of every run of writes over the standard grammar with a keyring, whose local id
can be read, and with or without a probe: what a reader is told of a slot can be written back to it
by its writer, with any options and without a call to the probe, and readers are told the same
after it. No document that was written asks for a check of reachability, and none has a predicate
`verify(..)` that names `by` or `signature`. -/
theorem write_back_reads_like {k : Keyring} (hk : k.localPeer.Valid) {g : Grammar}
    (hg : g = standard.withKeyring k ∨ ∃ probe, g = (standard.withKeyring k).withProbe probe)
    (config : StoreSettings) {steps : List Store.Step}
    (hsteps : ∀ a ∈ steps, a.Writes IsRereadable) (hno : ∀ now, .sweep now ∉ steps)
    {key : String} {writer : PeerId} {d : Dict}
    (hd : (((Store.empty g config).run steps).get key).get? writer = some d) (e : Expiry)
    (now : Instant) (options : WriteOptions) :
    ∃ s, ((Store.empty g config).run steps).update now writer key (d.toNode e) options =
      (.ok s, []) ∧ s.ReadsLike ((Store.empty g config).run steps) := by
  have hfacts : g.IsStock ∧ g.ReadsOwnClaims ∧ g.generic = true := by
    have hstock := isStock_standard.withKeyring k
    have hclaims := readsOwnClaims_withKeyring hk
    obtain rfl | ⟨probe, rfl⟩ := hg
    · exact ⟨hstock, hclaims, rfl⟩
    · exact ⟨hstock.withProbe probe, hclaims.withProbe probe, rfl⟩
  obtain ⟨hstock, hclaims, hgeneric⟩ := hfacts
  have hslots := Store.restorable_run hstock hclaims config hsteps hno
  rw [Store.get?_get] at hd
  obtain ⟨doc, hslot, hvisible⟩ := Option.bind_eq_some_iff.1 hd
  obtain ⟨hdoc, hrestorable⟩ := hslots key writer doc hslot
  refine Store.exists_write_back ?_ (fun k w d hd => (hslots k w d hd).1.distinctKeys) hslot
    hvisible
    hdoc ?_ e now options
  · rw [Store.grammar_run]
    exact hgeneric
  · rw [Store.grammar_run]
    exact hrestorable

/-- A profile: a peer, a text to be signed and a set of tags. -/
def profile : Node :=
  .dict none "" [(ofString "owner", .predicate none "peer" [ofString "QmLocal"] "" []),
    (ofString "motto", .predicate none "sign" [ofString "hello"] ""
      [(ofString "lang", ofString "en")]),
    (ofString "tags", .set none "" [ofString "a", ofString "b"])]

/-- The profile is written; a write that is no dict fails. -/
def profileWrites : List Store.Step :=
  [.write 0 ⟨"writerP"⟩ "k" profile (.lasting 100), .write 1 ⟨"writerP"⟩ "k" (ofString "x") {}]

/-- What is read of the profile is written back. -/
theorem write_back_profile :
    let s := (Store.empty (standard.withKeyring localKeyring) {}).run profileWrites
    ∃ d s', (s.get "k").get? ⟨"writerP"⟩ = some d ∧
      s.update 2 ⟨"writerP"⟩ "k" (d.toNode none) {} = (.ok s', []) ∧ s'.ReadsLike s := by
  have hwrites : ∀ a ∈ profileWrites, a.Writes IsRereadable := by
    have hprofile : profile.IsRereadable :=
      ⟨rfl, by decide, by simp [profile, ofString, IsReserving], by decide⟩
    have htext : (ofString "x").IsRereadable :=
      ⟨rfl, rfl, everywhere_leaf.2 trivial, everywhere_leaf.2 id⟩
    simp [profileWrites, Store.Step.Writes, hprofile, htext]
  have hlisted : ((((Store.empty (standard.withKeyring localKeyring) {}).run
      profileWrites).get "k").get? ⟨"writerP"⟩).isSome = true := by decide +kernel
  obtain ⟨d, hd⟩ := Option.isSome_iff_exists.1 hlisted
  obtain ⟨s', hs', hreads⟩ := write_back_reads_like (k := localKeyring) (by decide +kernel)
    (.inl rfl) {} hwrites (by simp [profileWrites]) hd none 2 {}
  exact ⟨d, s', hd, hs', hreads⟩

end PeerRecords
