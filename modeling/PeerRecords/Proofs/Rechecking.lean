import PeerRecords.Proofs.Merge.Basic
import PeerRecords.Proofs.Reached
import PeerRecords.Proofs.Reassembly

/-
  Assembling a document again.
  A check of reachability lists the addresses that were reached as its arguments, and the candidates
  that were not as they were written. A network that goes by the mode and the address alone confirms
  what is listed (`Confirms`): asked again it gives the answers it gave, and every candidate comes
  to stand where it stood (`ends_probeAll_confirmed`). The other rules reread what they have planned
  (`Rereads`). So whatever is made of a plain document is made of its own plain form again
  (`rebuilds_of_yields`).

  Main statement: `plain_form_assembles_back`.
-/

namespace PeerRecords

open Node Assembly Grammar

/-! ## Answers -/

/-- The candidate is no address, or one that the network does not accept in the mode. -/
def Refuses (reaches : ProbeMode → Multiaddr → Bool) (mode : ProbeMode) (u : Node) : Prop :=
  ∀ addr, u.candidateAddr? = some addr → reaches mode addr = false

/-- The network accepts what a check lists as verified and refuses what it lists as unverified; the
candidates stand as they were written, and none is in question. -/
structure Confirms (reaches : ProbeMode → Multiaddr → Bool) (mode : ProbeMode)
    (vs uvs : List Node) : Prop where
  accepted : ∀ v ∈ vs, Accepts reaches mode v
  refused : ∀ u ∈ uvs, Refuses reaches mode u
  plain : ∀ u ∈ uvs, u.isPlain = true
  distinct : areDistinct vs = true ∧ areDistinct uvs = true
  settled : outstanding vs uvs = uvs

section

variable {reaches : ProbeMode → Multiaddr → Bool} {mode : ProbeMode} {ctx : Context}

theorem Refuses.withExpiry {u : Node} (h : Refuses reaches mode u) (e : Expiry) :
    Refuses reaches mode (u.withExpiry e) := by
  intro addr haddr
  refine h addr ?_
  rw [← haddr, ← candidateAddr?_through .blank (u.withExpiry e), through_blank, timeless_withExpiry,
    ← through_blank, candidateAddr?_through]

/-- Before the deadline the answer is the network's. -/
theorem ends_ask (hlate : ctx.isLate = false) (addr : Multiaddr) :
    (ask (.ofPredicate reaches) ctx mode addr).Ends False (· = reaches mode addr) := by
  unfold ask
  rw [if_neg (by simp [hlate])]
  exact ⟨_, rfl, fun calls => ⟨_, rfl, False.elim⟩⟩

theorem refused_of_yields_ask (hlate : ctx.isLate = false) {addr : Multiaddr}
    (h : (ask (.ofPredicate reaches) ctx mode addr).Yields false) : reaches mode addr = false := by
  obtain ⟨calls, calls', h⟩ := h
  have hends : (ask (.ofPredicate reaches) ctx mode addr).Ends False (· = reaches mode addr) :=
    ends_ask hlate addr
  obtain ⟨_, rfl, hrun⟩ := hends
  obtain ⟨calls'', hcalls, _⟩ := hrun calls
  rw [h] at hcalls
  exact (Except.ok.inj (congrArg Prod.fst hcalls)).symm

theorem refused_of_probeAll (hlate : ctx.isLate = false) {cs : List Node}
    {found ends : List Node × List Node} (hfound : ∀ u ∈ found.2, Refuses reaches mode u)
    (h : (probeAll (.ofPredicate reaches) ctx mode cs found).Yields ends) :
    ∀ u ∈ ends.2, Refuses reaches mode u := by
  induction cs generalizing found with
  | nil =>
    obtain rfl := yields_pure.1 h
    exact hfound
  | cons c cs ih =>
    have hkeep : Refuses reaches mode c →
        ∀ u ∈ NodeSet.addTo found.2 (c.withExpiry ctx.expiry), Refuses reaches mode u := by
      intro hc u hu
      obtain hu | rfl := NodeSet.mem_addTo hu
      · exact hfound u hu
      · exact hc.withExpiry ctx.expiry
    unfold probeAll at h
    split at h
    next hnone =>
      refine ih (hkeep fun addr haddr => ?_) h
      rw [hnone] at haddr
      cases haddr
    next addr haddr =>
      obtain ⟨yes, hask, h⟩ := h.bind
      cases yes with
      | true =>
        refine ih ?_ h
        exact hfound
      | false =>
        refine ih (hkeep fun addr' haddr' => ?_) h
        obtain rfl : addr = addr' := Option.some.inj (haddr.symm.trans haddr')
        exact refused_of_yields_ask hlate hask

/-- Before the deadline a check of plain candidates comes to lists that the network confirms. -/
theorem confirms_of_probeAll (hlate : ctx.isLate = false) {cs : List Node}
    (hcs : ∀ c ∈ cs, c.isPlain = true) {found : List Node × List Node}
    (h : (probeAll (.ofPredicate reaches) ctx mode cs ([], [])).Yields found) :
    Confirms reaches mode found.1 (outstanding found.1 found.2) := by
  have hsorted : Sorted ctx cs found :=
    sorted_probeAll (fun c hc => hc) ⟨by simp, by simp, rfl, rfl⟩ h
  have hrefused : ∀ u ∈ found.2, Refuses reaches mode u :=
    refused_of_probeAll hlate (by simp) h
  refine ⟨accepts_of_probeAll (by simp) h, fun u hu => hrefused u (mem_of_mem_outstanding hu), ?_,
    ⟨hsorted.distinct.1, areDistinct_sublist List.filter_sublist hsorted.distinct.2⟩,
    by simp [outstanding, List.filter_filter]⟩
  intro u hu
  obtain ⟨c, hc, rfl⟩ := hsorted.unverified u (mem_of_mem_outstanding hu)
  have hplain := hcs c hc
  cases c <;> exact hplain

theorem ends_probeAll_refused (hlate : ctx.isLate = false) {uvs : List Node}
    (huvs : ∀ u ∈ uvs, Refuses reaches mode u) (found : List Node × List Node) :
    (probeAll (.ofPredicate reaches) ctx mode uvs found).Ends False
      (· = (found.1, NodeSet.addAll found.2 (uvs.map (withExpiry ctx.expiry)))) := by
  induction uvs generalizing found with
  | nil => exact .pure rfl
  | cons u uvs ih =>
    obtain ⟨hu, hrest⟩ := List.forall_mem_cons.1 huvs
    unfold probeAll
    split
    next => exact ih hrest _
    next addr haddr =>
      refine (ends_ask hlate addr).bind ?_
      rintro _ rfl
      rw [hu addr haddr]
      exact ih hrest _

/-- Asked again about candidates that it accepts and then about others that it does not, the network
parts them as they are. -/
theorem ends_probeAll_confirmed (hlate : ctx.isLate = false) {vs uvs : List Node}
    (hvs : ∀ v ∈ vs, Accepts reaches mode v) (huvs : ∀ u ∈ uvs, Refuses reaches mode u)
    (found : List Node × List Node) :
    (probeAll (.ofPredicate reaches) ctx mode (vs ++ uvs) found).Ends False
      (· = (NodeSet.addAll found.1 (vs.map (withExpiry ctx.expiry)),
        NodeSet.addAll found.2 (uvs.map (withExpiry ctx.expiry)))) := by
  induction vs generalizing found with
  | nil => exact ends_probeAll_refused hlate huvs found
  | cons v vs ih =>
    obtain ⟨⟨s, addr, hs, haddr, hyes⟩, hrest⟩ := List.forall_mem_cons.1 hvs
    obtain ⟨e, rfl⟩ := string?_eq_some.1 hs
    obtain rfl := Multiaddr.text_of_parse haddr
    have hcandidate : (leaf e (.string addr.text)).candidateAddr? = some addr :=
      toOption_eq_some.2 haddr
    rw [List.cons_append, probeAll, hcandidate]
    refine (ends_ask hlate addr).bind ?_
    rintro _ rfl
    rw [hyes]
    exact ih hrest _

end

namespace Grammar

variable {g : Grammar} {reaches : ProbeMode → Multiaddr → Bool} {ctx ctx' : Context}

/-! ## Checks -/

theorem readMode_reachableFields (mode : ProbeMode) (ut : String) (uvs : List Node)
    (ps : List (Node × Node)) : readMode (reachableFields mode ut uvs ++ ps) = .ok mode := by
  cases mode <;> rfl

theorem readRetried_reachableFields (mode : ProbeMode) (ut : String) (uvs : List Node)
    {us : List (Node × Node)} (hus : ∀ u ∈ us, isReserved reachableNames u.1 = false) :
    readRetried (reachableFields mode ut uvs ++ disassembleEntries us) = .ok uvs := by
  cases uvs with
  | nil =>
    have hnone : namedArgument? "unverified" (disassembleEntries us) = none := by
      rw [namedArgument?_disassembleEntries, namedArgument?_of_untouched (by decide) hus]
      rfl
    have hskip : namedArgument? "unverified" (reachableFields mode ut [] ++ disassembleEntries us) =
        namedArgument? "unverified" (disassembleEntries us) := rfl
    rw [readRetried, hskip, hnone]
  | cons u uvs => rfl

theorem isReserved_reachableFields (mode : ProbeMode) (ut : String) (uvs : List Node) :
    ∀ f ∈ reachableFields mode ut uvs, isReserved reachableNames f.1 = true := by
  intro f hf
  unfold reachableFields at hf
  rcases List.mem_cons.1 hf with rfl | hf
  · rfl
  · split at hf
    · exact absurd hf List.not_mem_nil
    · obtain rfl := List.mem_singleton.1 hf
      rfl

/-- A check whose lists the network confirms is made again of its plain form. -/
theorem rebuilds_reachable (e : Expiry) (hg : g.generic = true) (hlate : ctx.isLate = false)
    (hrule : g.ruleFor? "reachable" = some (.reachable (.ofPredicate reaches))) {mode : ProbeMode}
    {vs uvs : List Node} (h : Confirms reaches mode vs uvs) {us : List (Node × Node)}
    (hus : ∀ u ∈ us, isReserved reachableNames u.1 = false)
    (hkeys : areDistinct (us.map (·.1)) = true)
    (hrebuild : ∀ c ∈ entryNodes us, g.Rebuilds ctx False c) :
    g.Rebuilds ctx False (.reachable e mode "" vs "" uvs us) := by
  have hplain : ∀ v ∈ vs, v.isPlain = true := by
    intro v hv
    obtain ⟨s, _, hs, _⟩ := h.accepted v hv
    obtain ⟨e', rfl⟩ := string?_eq_some.1 hs
    rfl
  have hvs : disassembleAll vs = vs :=
    disassembleAll_eq_self fun v hv => disassemble_of_isPlain (hplain v hv)
  have huvs : disassembleAll uvs = uvs :=
    disassembleAll_eq_self fun u hu => disassemble_of_isPlain (h.plain u hu)
  rw [Rebuilds, disassemble, hvs, huvs]
  refine ends_of_plans e hg hrule (.reachable (readMode_reachableFields mode "" uvs _)
    (readRetried_reachableFields mode "" uvs hus)) (isReserved_reachableFields mode "" uvs) hus
    hkeys
    hrebuild fun ws hws => (ends_probeAll_confirmed hlate h.accepted h.refused ([], [])).bind ?_
  rintro _ rfl
  refine .pure ?_
  have hkept : ∀ {ns : List Node}, areDistinct ns = true →
      (NodeSet.addAll [] (ns.map (withExpiry ctx.expiry))).map timeless = ns.map timeless := by
    intro ns hns
    have hsame : (ns.map (withExpiry ctx.expiry)).map timeless = ns.map timeless := by
      rw [List.map_map]
      exact List.map_congr_left fun n _ => timeless_withExpiry ctx.expiry n
    have hall : NodeSet.addAll [] (ns.map (withExpiry ctx.expiry)) =
        ns.map (withExpiry ctx.expiry) := by
      refine NodeSet.addAll_nil ?_
      rw [← areDistinct_map_timeless, hsame, areDistinct_map_timeless]
      exact hns
    rw [hall, hsame]
  simp only [timeless, timelessAll_eq_map]
  rw [map_timeless_outstanding, hkept h.distinct.1, hkept h.distinct.2, ← map_timeless_outstanding,
    h.settled, hws]

/-! ## Documents -/

/-- What is made of a plain document is made of its plain form again, if the grammar reads its own
claims, no predicate `verify(..)` names `by` or `signature`, and the network goes by the mode and
the address. -/
theorem rebuilds_of_yields (hg : g.IsStock) (hclaims : g.ReadsOwnClaims)
    (hprobe : ∀ probe, g.ruleFor? "reachable" = some (.reachable probe) →
      probe = .ofPredicate reaches)
    (hlate : ctx.isLate = false) (hlate' : ctx'.isLate = false) {n m : Node}
    (hplain : n.isPlain = true) (hreserving : n.Everywhere IsReserving)
    (h : (g.assemble ctx n).Yields m) : g.Rebuilds ctx' False m := by
  have hgeneric := (hg.of_yields h).1
  induction n using induct_children generalizing m with
  | step n ih =>
    have hchild : ∀ c ∈ n.children, ∀ m, (g.assemble ctx c).Yields m → g.Rebuilds ctx' False m :=
      fun c hc m hm => ih c hc ((isPlain_iff_children.1 hplain).2 c hc) (hreserving.child hc) hm
    cases hg.assembled_of_yields h with
    | leaf e v => exact rebuilds_leaf _ hgeneric v
    | dict e t hmade => exact rebuilds_dict _ hgeneric t hmade.2 (hmade.forall_entryNodes hchild)
    | @set e t es fs hfs =>
      refine rebuilds_set _ hgeneric t (NodeSet.areDistinct_addAll fs rfl) fun c hc => ?_
      exact forall_of_forall₂ hfs hchild c ((NodeSet.mem_addAll hc).resolve_left List.not_mem_nil)
    | predicate e nt hrule hargs hmade =>
      exact rebuilds_predicate _ hgeneric nt hrule
        (forall_of_forall₂ hargs fun x hx => hchild x (List.mem_append_left _ hx)) hmade.2
        (hmade.forall_entryNodes fun x hx => hchild x (List.mem_append_right _ hx))
    | @planned e nt rule as ps us p m hrule hp hmade hm =>
      have hus := hmade.forall_entryNodes fun x hx => hchild x (List.mem_append_right _ hx)
      have hwithin : ∀ x : Node, x.Within (.predicate e rule.tag as nt ps) → x.isPlain = true :=
        fun x hx => isPlain_iff.2 fun v hv => isPlain_iff.1 hplain v (hx.trans hv)
      by_cases htag : rule.tag = "reachable"
      · cases hp with
        | @reachable probe as cs ps mode hmode hcs =>
          obtain rfl := hprobe probe hrule
          obtain ⟨found, hfound, hm⟩ := hm.bind
          obtain rfl := yields_pure.1 hm
          have hcandidates : ∀ c ∈ as ++ cs, c.isPlain = true :=
            List.forall_mem_append.2 ⟨fun c hc => hwithin c (within_argument hc),
              fun c hc => hwithin c (within_readRetried hcs c hc)⟩
          refine rebuilds_reachable _ hgeneric hlate' hrule
            (confirms_of_probeAll hlate hcandidates hfound) (fun u hu => ?_) hmade.2 hus
          obtain ⟨q, _, hfree, hk, _⟩ := hmade.mem hu
          exact isReserved_of_yields hg hk hfree
        | _ => simp [TagRule.tag] at htag
      · cases rereads_of_plans hclaims hrule hp (fun a ha => hwithin a (within_argument ha))
          htag with
        | identity hread =>
          obtain rfl := yields_pure.1 hm
          exact rebuilds_identity _ hgeneric hread hmade.2 hus
        | claim reserved hread hs =>
          obtain rfl := yields_pure.1 hm
          exact rebuilds_claim _ hgeneric hread hs
            (not_isReserved_of_claim hg hp hmade hreserving.self rfl) hmade.2 hus
        | verify hread hs =>
          obtain rfl := yields_pure.1 hm
          exact rebuilds_verify _ hgeneric hread hs hmade.2 hus

end Grammar

/-- What the standard grammar with a keyring, whose local id can be read, and with a network that
goes by the mode and the address alone has made of a plain document, it makes again of the plain
form of that, in any other context: the documents are equal, and node by node of the same kind and
the same but for expirations. Both times the deadline is not over. No predicate `verify(..)` in the
first document names `by` or `signature`. -/
theorem plain_form_assembles_back {k : Keyring} (hk : k.localPeer.Valid)
    (reaches : ProbeMode → Multiaddr → Bool) {ctx ctx' : Context} (hlate : ctx.isLate = false)
    (hlate' : ctx'.isLate = false) {n m : Node} (hplain : n.isPlain = true) (hn : n.WellFormed)
    (hreserving : n.Everywhere IsReserving)
    (h : (((standard.withKeyring k).withProbe (.ofPredicate reaches)).assemble ctx n).outcome.1 =
      .ok m) :
    ∃ m', (((standard.withKeyring k).withProbe (.ofPredicate reaches)).assemble ctx'
        m.disassemble).outcome.1 = .ok m' ∧ m'.eqv m = true ∧ m'.timeless = m.timeless := by
  have hg : ((standard.withKeyring k).withProbe (.ofPredicate reaches)).IsStock :=
    (isStock_standard.withKeyring k).withProbe _
  have hclaims := (readsOwnClaims_withKeyring hk).withProbe (.ofPredicate reaches)
  have hprobe : ∀ probe, ((standard.withKeyring k).withProbe (.ofPredicate reaches)).ruleFor?
      "reachable" = some (.reachable probe) → probe = .ofPredicate reaches := by
    intro probe hrule
    cases hrule
    rfl
  obtain ⟨m', hm', htimeless⟩ := (Grammar.rebuilds_of_yields hg hclaims hprobe hlate hlate' hplain
    hreserving (.of_outcome h)).exists_outcome
  have hm : m.WellFormed := wellFormed_of_yields (hg.upholds _) hn (.of_outcome h)
  exact ⟨m', hm', eqv_of_timeless_eq hm.distinctKeys htimeless, htimeless⟩

/-- A text to be signed, a claim that nobody vouches for, and two addresses to be checked with a
remark that has another. -/
def notice : Node :=
  .dict none "" [(ofString "motto", .predicate none "sign" [ofString "hello"] ""
      [(ofString "lang", ofString "en")]),
    (ofString "claim", .predicate none "verify" [.predicate none "signed" [ofString "hello"] ""
      [(ofString "by", ofString "QmMallory"), (ofString "signature", ofBlob [1])]] "" []),
    (ofString "at", .predicate none "reachable"
      [ofString "/ip4/10.0.0.2/tcp/1", ofString "/ip4/10.0.0.1/tcp/1"] ""
      [(ofString "also", .predicate none "reachable" [ofString "/ip4/10.0.0.1/tcp/1"] "" [])])]

/-- The notice is assembled and, a year later, what was made of it. -/
theorem plain_form_assembles_back_notice :
    ∃ m m', (((standard.withKeyring localKeyring).withProbe oneAddress).assemble {}
        notice).outcome.1 = .ok m ∧
      (((standard.withKeyring localKeyring).withProbe oneAddress).assemble
        { now := 31536000, expiry := some 31536100 } m.disassemble).outcome.1 = .ok m' ∧
      m'.eqv m = true ∧ m'.timeless = m.timeless := by
  have hsucceeds : (((standard.withKeyring localKeyring).withProbe oneAddress).assemble {}
      notice).outcome.1.isOk = true := by decide +kernel
  cases hfirst : (((standard.withKeyring localKeyring).withProbe oneAddress).assemble {}
      notice).outcome.1 with
  | error e =>
    rw [hfirst] at hsucceeds
    cases hsucceeds
  | ok m =>
    have hlater : ({ now := 31536000, expiry := some 31536100 } : Context).isLate = false := rfl
    obtain ⟨m', hm'⟩ := plain_form_assembles_back (k := localKeyring) (by decide +kernel)
      (fun _ addr => addr.text == "/ip4/10.0.0.1/tcp/1") rfl hlater (n := notice) (by decide)
      (by decide) (by simp [notice, ofString, ofBlob, IsReserving]) hfirst
    exact ⟨m, m', rfl, hm'⟩

end PeerRecords
