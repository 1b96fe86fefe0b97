import PeerRecords.Proofs.Reassembly
import PeerRecords.Proofs.Signature
import PeerRecords.Proofs.Wire.RoundTrip

/-
  Assembly keeps the meaning of a document.
  Outside of the statements of claims, which are quoted as they stand, three rules make something
  else of a predicate than it says: those for `sign(..)`, `verify(..)` and `reachable(..)`. Without
  them the plain form of what a grammar makes is like the document it was given (`alike_of_yields`).
  What a rule reads it lays down again, its own fields before the user's; so the one thing that
  changes is the order of named arguments, and keys and elements stay distinct. Where no tag has a
  rule every document is assembled.
-/

namespace PeerRecords

open Node Assembly Grammar

namespace Node

/-! ## Documents that mean the same -/

/-- Two documents mean the same: they are structurally equal, their content has one name, and what
is read of their texts is equal, unless neither is read since both are nested too deep. -/
structure MeansLike (a b : Node) : Prop where
  eqv : a.eqv b = true
  contentId : a.contentId = b.contentId
  wire : (∃ x y, unmarshal a.marshal = .ok x ∧ unmarshal b.marshal = .ok y ∧ x.eqv y = true) ∨
    (unmarshal a.marshal = .error .format ∧ unmarshal b.marshal = .error .format)

/-- The text of a document is read as one that is equal to it, if the limit admits it. -/
theorem unmarshal_marshal_eqv {n : Node} (hn : n.WellFormed) (huntagged : n.Everywhere IsUntagged)
    (hlimit : n.nesting ≤ Json.nestingLimit) :
    ∃ m, unmarshal n.marshal = .ok m ∧ m.eqv n = true ∧ m.WellFormed := by
  obtain ⟨m, hread, hmatch⟩ := Wire.toNode_ofPlain (sendable_disassemble hn huntagged)
  have htidy := (Wire.sendable_of_toNode hread).tidy
  refine ⟨m, ?_, hmatch.eqv hn htidy, htidy.2⟩
  rw [unmarshal_marshal, if_pos hlimit]
  exact hread

/-- Structurally equal documents mean the same. -/
theorem meansLike_of_eqv {a b : Node} (ha : a.WellFormed) (hb : b.WellFormed)
    (hta : a.Everywhere IsUntagged) (htb : b.Everywhere IsUntagged) (h : a.eqv b = true) :
    a.MeansLike b := by
  have hnesting : a.nesting = b.nesting := nesting_eq_of_alike ((eqv_iff_alike ha hb).1 h)
  refine ⟨h, ?_, ?_⟩
  · rw [Node.contentId, Node.contentId, digest, digest, canonical_eq_of_eqv ha hb h]
  · by_cases hlimit : a.nesting ≤ Json.nestingLimit
    · obtain ⟨x, hx, hxa, hwx⟩ := unmarshal_marshal_eqv ha hta hlimit
      obtain ⟨y, hy, hyb, hwy⟩ := unmarshal_marshal_eqv hb htb (hnesting ▸ hlimit)
      exact .inl ⟨x, y, hx, hy,
        eqv_trans hwx ha hwy hxa (eqv_trans ha hb hwy h (eqv_symm hwy hb hyb))⟩
    · refine .inr ⟨?_, ?_⟩
      · rw [unmarshal_marshal, if_neg hlimit]
      · rw [unmarshal_marshal, if_neg (hnesting ▸ hlimit)]

/-! ## Outside of statements -/

/-- The nodes that stand directly in a node, but for the statement of a claim. -/
def unquoted : Node → List Node
  | .predicate e t as nt ps =>
    if t = "signed" ∨ t = "verified" then entryNodes ps
    else (Node.predicate e t as nt ps).children
  | n => n.children

/-- A property holds of everything that occurs in a node outside of the statements of claims. -/
def OutsideStatements (P : Node → Prop) (n : Node) : Prop :=
  ∀ v, Relation.ReflTransGen (fun m c => c ∈ m.unquoted) n v → P v

theorem outsideStatements_iff {P : Node → Prop} {n : Node} :
    n.OutsideStatements P ↔ P n ∧ ∀ c ∈ n.unquoted, c.OutsideStatements P := by
  constructor
  · intro h
    exact ⟨h n .refl, fun c hc v hv => h v (.head hc hv)⟩
  · rintro ⟨hn, hc⟩ v hv
    obtain rfl | ⟨c, hcn, hcv⟩ := Relation.ReflTransGen.cases_head hv
    · exact hn
    · exact hc c hcn v hcv

section

variable {P : Node → Prop} {e : Expiry} {t nt : String} {as : List Node} {ps : List (Node × Node)}

@[simp] theorem outsideStatements_leaf {v : Leaf} :
    (leaf e v).OutsideStatements P ↔ P (leaf e v) := by
  rw [outsideStatements_iff]
  simp [unquoted, children]

@[simp] theorem outsideStatements_dict : (dict e t ps).OutsideStatements P ↔
    P (dict e t ps) ∧ ∀ p ∈ ps, p.1.OutsideStatements P ∧ p.2.OutsideStatements P := by
  rw [outsideStatements_iff, unquoted, children, forall_entryNodes]
  rintro e t as nt ps h
  cases h

@[simp] theorem outsideStatements_predicate : (predicate e t as nt ps).OutsideStatements P ↔
    P (predicate e t as nt ps) ∧
      (¬ (t = "signed" ∨ t = "verified") → ∀ n ∈ as, n.OutsideStatements P) ∧
      ∀ p ∈ ps, p.1.OutsideStatements P ∧ p.2.OutsideStatements P := by
  rw [outsideStatements_iff, unquoted]
  by_cases ht : t = "signed" ∨ t = "verified"
  · rw [if_pos ht, forall_entryNodes]
    simp [ht]
  · rw [if_neg ht, children, List.forall_mem_append, forall_entryNodes]
    simp [ht]

end

theorem mem_children_of_mem_unquoted {n c : Node} (h : c ∈ n.unquoted) : c ∈ n.children := by
  cases n with
  | predicate e t as nt ps =>
    rw [unquoted] at h
    split at h
    · exact List.mem_append_right _ h
    · exact h
  | _ => exact h

theorem mem_unquoted_of_entry {e : Expiry} {t nt : String} {as : List Node}
    {ps : List (Node × Node)} {c : Node} (hc : c ∈ entryNodes ps) :
    c ∈ (predicate e t as nt ps).unquoted := by
  rw [unquoted]
  split
  · exact hc
  · exact List.mem_append_right _ hc

/-! ## The fields of a claim -/

theorem alike_of_string? {k l : Node} {s : String} (hk : k.string? = some s)
    (hl : l.string? = some s) : Alike k l := by
  obtain ⟨e, rfl⟩ := string?_eq_some.1 hk
  obtain ⟨e', rfl⟩ := string?_eq_some.1 hl
  exact leaf_alike_refl _

theorem exists_of_namedArgument? {name : String} {ps : List (Node × Node)} {v : Node}
    (h : namedArgument? name ps = some v) : ∃ p ∈ ps, p.1.string? = some name ∧ p.2 = v := by
  obtain ⟨p, hp, rfl⟩ := Option.map_eq_some_iff.1 h
  have htext := List.find?_some hp
  exact ⟨p, List.mem_of_find?_eq_some hp, by simpa [Dict.isText] using htext, rfl⟩

/-- The fields that a claim lays down are those it was read from, among all of the predicate. -/
theorem pairedOff_claimFields {as : List Node} {ps us : List (Node × Node)} {s : Signature}
    (hs : ReadsSignature as ps s) (htidy : ∀ p ∈ ps, p.1.Tidy)
    (hkeys : areDistinct (ps.map (·.1)) = true)
    (hus : List.Forall₂ AlikeEntry us (ps.filter fun p => !isReserved claimNames p.1)) :
    PairedOff AlikeEntry (claimFields s.signer s.signature ++ us) ps := by
  obtain ⟨v, hv, hvs⟩ := Option.bind_eq_some_iff.1 hs.signer
  obtain ⟨p, hp, hpk, rfl⟩ := exists_of_namedArgument? hv
  obtain ⟨e, he⟩ := hs.signature
  obtain ⟨q, hq, hqk, hqv⟩ := exists_of_namedArgument? he
  have hapart : ps.Pairwise fun p q => ¬ Alike p.1 q.1 :=
    pairwise_entries_not_alike htidy (fun p hp q hq => same_iff_alike (htidy p hp) (htidy q hq))
      hkeys
  have hnodup : ps.Nodup := hapart.imp_of_mem fun hx _ hxy heq =>
    hxy (heq ▸ Alike.refl (htidy _ hx).1)
  have hreserved : (ps.filter fun p => isReserved claimNames p.1).Perm [p, q] := by
    have hpq : p ≠ q := by
      rintro rfl
      rw [hpk] at hqk
      exact absurd (Option.some.inj hqk) (by decide)
    refine (List.perm_ext_iff_of_nodup (hnodup.filter _) (by simpa using hpq)).2 fun x => ?_
    rw [List.mem_filter, List.mem_pair]
    constructor
    · rintro ⟨hx, hname⟩
      obtain ⟨name, hxk, hname⟩ := (Option.any_eq_true _ _).1 hname
      have hnames : name = "by" ∨ name = "signature" := by simpa [claimNames] using hname
      obtain rfl | rfl := hnames
      · exact .inl (eq_of_alike hapart hx hp (alike_of_string? hxk hpk))
      · exact .inr (eq_of_alike hapart hx hq (alike_of_string? hxk hqk))
    · rintro (rfl | rfl)
      · exact ⟨hp, by rw [isReserved, hpk]; rfl⟩
      · exact ⟨hq, by rw [isReserved, hqk]; rfl⟩
  have hsigner : AlikeEntry (ofString "by", ofString s.signer.name) p :=
    ⟨alike_of_string? rfl hpk, alike_of_string? rfl hvs⟩
  have hsignature : AlikeEntry (ofString "signature", ofBlob s.signature) q := by
    refine ⟨alike_of_string? rfl hqk, ?_⟩
    rw [hqv]
    exact leaf_alike_refl _
  exact .of_perm (.cons hsigner (.cons hsignature hus)) (.refl _)
    ((hreserved.symm.append_right _).trans (List.filter_append_perm _ ps))

theorem alike_claim {e e' : Expiry} {a : Assurance} {s : Signature} {as : List Node}
    {ps us : List (Node × Node)} (hs : ReadsSignature as ps s)
    (hn : (predicate e a.kind.name as "" ps).Tidy)
    (hfree : ∀ u ∈ us, isReserved claimNames u.1 = false)
    (hkeys : areDistinct (us.map (·.1)) = true)
    (hus : List.Forall₂ AlikeEntry (disassembleEntries us)
      (ps.filter fun p => !isReserved claimNames p.1)) :
    Alike (claim e' a s.signer s.statement s.signature us).disassemble
      (predicate e a.kind.name as "" ps) := by
  have htidy : ∀ p ∈ ps, p.1.Tidy := fun p hp =>
    hn.child (List.mem_append_right _ (fst_mem_entryNodes hp))
  have hfields := pairedOff_claimFields hs htidy (hasDistinctKeys_of_local
    (wellFormed_iff_children.1 hn.2).1) hus
  obtain ⟨x, rfl, hx⟩ := hs.statement
  have hplain : x.isPlain = true := (hn.child (List.mem_append_left _ List.mem_cons_self)).1
  rw [disassemble, hx, disassemble_disassemble, disassemble_of_isPlain hplain,
    layOver_claimFields hfree hkeys]
  exact alike_predicate.2 ⟨rfl, .cons (.refl hplain) .nil, rfl, hfields⟩

theorem alike_identity {e e' : Expiry} {i : Identity} {x : Node} {ps us : List (Node × Node)}
    (hx : x.string? = some i.text) (hkeys : areDistinct (us.map (·.1)) = true)
    (hus : List.Forall₂ AlikeEntry (disassembleEntries us)
      (ps.filter fun q => !isReserved [] q.1)) :
    Alike (identity e' i us).disassemble (predicate e i.kind.name [x] "" ps) := by
  have hall : (ps.filter fun q => !isReserved [] q.1) = ps := by simp
  rw [hall] at hus
  rw [disassemble, layOver_eq_append (by simp) (pairwise_keys_disassembleEntries hkeys)]
  exact alike_predicate.2 ⟨rfl, .cons (alike_of_string? rfl hx) .nil, rfl, _, hus, .refl _⟩

end Node

/-! ## What assembly makes -/

namespace Grammar

/-- The tags whose rules make something else of a predicate than it says. -/
def changingTags : List String := ["sign", "verify", "reachable"]

variable {g : Grammar} {ctx : Context}

/-- What a plan comes to is like the predicate, unless its rule is to make something else of it. -/
theorem alike_of_plans {rule : TagRule} {e : Expiry} {as : List Node} {ps us : List (Node × Node)}
    {p : Plan} {m : Node} (hp : rule.Plans as ps p) (htag : rule.tag ∉ changingTags)
    (hn : (predicate e rule.tag as "" ps).Tidy)
    (hfree : ∀ u ∈ us, isReserved p.reserved u.1 = false)
    (hkeys : areDistinct (us.map (·.1)) = true)
    (hus : List.Forall₂ AlikeEntry (disassembleEntries us)
      (ps.filter fun q => !isReserved p.reserved q.1))
    (hm : (p.finish ctx us).Yields m) : Alike m.disassemble (predicate e rule.tag as "" ps) := by
  cases hp with
  | record hx =>
    obtain rfl := yields_pure.1 hm
    exact alike_identity hx hkeys hus
  | peer hx hid =>
    obtain rfl := yields_pure.1 hm
    exact alike_identity hx hkeys hus
  | cid hx hvalue =>
    obtain rfl := yields_pure.1 hm
    exact alike_identity hx hkeys hus
  | multiaddress hx haddr =>
    obtain rfl := yields_pure.1 hm
    exact alike_identity hx hkeys hus
  | signed hs =>
    obtain rfl := yields_pure.1 hm
    exact alike_claim hs hn hfree hkeys hus
  | verified hs hk =>
    obtain rfl := yields_pure.1 hm
    exact alike_claim hs hn hfree hkeys hus
  | sign k x => exact absurd (by simp [TagRule.tag, changingTags]) htag
  | accepted hs hk => exact absurd (by simp [TagRule.tag, changingTags]) htag
  | refused hs hk => exact absurd (by simp [TagRule.tag, changingTags]) htag
  | reachable hmode hcs => exact absurd (by simp [TagRule.tag, changingTags]) htag

/-- Outside of the statements of claims, and where no rule is to make something else of a predicate,
the plain form of what a grammar makes is like the document that it was given. -/
theorem alike_of_yields (hg : g.IsStock) (hsigned : g.hasRule "signed" = true)
    (hverified : g.hasRule "verified" = true) {n m : Node} (hn : n.Tidy)
    (huntagged : n.Everywhere IsUntagged)
    (hout : n.OutsideStatements fun v => ¬ v.IsTagged changingTags)
    (h : (g.assemble ctx n).Yields m) : Alike m.disassemble n := by
  induction n using induct_children generalizing m with
  | step n ih =>
    have hchild : ∀ {c m : Node}, c ∈ n.unquoted → (g.assemble ctx c).Yields m →
        Alike m.disassemble c := fun hc hm =>
      ih _ (mem_children_of_mem_unquoted hc) (hn.child (mem_children_of_mem_unquoted hc))
        (huntagged.child (mem_children_of_mem_unquoted hc)) ((outsideStatements_iff.1 hout).2 _ hc)
        hm
    have hentries : ∀ {reserved : List String} {ps us : List (Node × Node)},
        (∀ c ∈ entryNodes ps, c ∈ n.unquoted) → g.EntriesMade ctx reserved ps us →
        List.Forall₂ AlikeEntry (disassembleEntries us)
          (ps.filter fun p => !isReserved reserved p.1) := by
      intro reserved ps us hps hus
      have hpairs : List.Forall₂ (fun p q => AlikeEntry (q.1.disassemble, q.2.disassemble) p)
          (ps.filter fun p => !isReserved reserved p.1) us := by
        refine forall₂_of_mem hus.1 fun p hp q hpq => ?_
        have hmem := List.mem_of_mem_filter hp
        exact ⟨hchild (hps _ (fst_mem_entryNodes hmem)) hpq.1,
          hchild (hps _ (snd_mem_entryNodes hmem)) hpq.2⟩
      rw [disassembleEntries_eq_map, List.forall₂_map_left_iff]
      exact hpairs.flip
    have hall : ∀ {ns ms : List Node}, (∀ c ∈ ns, c ∈ n.unquoted) →
        List.Forall₂ (fun c m => (g.assemble ctx c).Yields m) ns ms →
        List.Forall₂ Alike (ms.map Node.disassemble) ns := by
      intro ns ms hns hms
      rw [List.forall₂_map_left_iff]
      exact (forall₂_of_mem (S := fun c m => Alike m.disassemble c) hms
        fun c hc m hm => hchild (hns c hc) hm).flip
    cases hg.assembled_of_yields h with
    | leaf e v => exact leaf_alike_refl v
    | dict e t hmade =>
      have hps := hentries (fun _ => id) hmade
      exact alike_dict.2 ⟨rfl, _, by simpa using hps, .refl _⟩
    | @set e t es fs hfs =>
      have hlike := hall (fun _ => id) hfs
      have hwell : ∀ f ∈ fs, f.WellFormed := by
        intro f hf
        obtain ⟨x, hx, hxf⟩ := exists_of_forall₂_right hfs hf
        exact wellFormed_of_yields (hg.upholds _) (hn.child hx).2 hxf
      have hdistinct : areDistinct (fs.map Node.disassemble) = true := by
        have hlike' : List.Forall₂ Alike es (fs.map Node.disassemble) :=
          (hlike.imp fun _ _ => Alike.symm).flip
        exact areDistinct_of_alike hlike' (fun x hx => hn.child hx)
          (List.forall_mem_map.2 fun f hf => (hwell f hf).tidy) (wellFormed_iff_children.1 hn.2).1
      rw [areDistinct_map_disassemble] at hdistinct
      rw [NodeSet.addAll_nil hdistinct, disassemble, disassembleAll_eq_map]
      exact alike_set.2 ⟨rfl, _, hlike, .refl _⟩
    | @predicate e t nt as bs ps qs hrule hargs hmade =>
      have hopen : ¬ (t = "signed" ∨ t = "verified") := by
        rintro (rfl | rfl)
        · simp [hasRule, hrule] at hsigned
        · simp [hasRule, hrule] at hverified
      have hunquoted : ∀ c ∈ as, c ∈ (predicate e t as nt ps).unquoted := by
        intro c hc
        rw [unquoted, if_neg hopen]
        exact List.mem_append_left _ hc
      have hps := hentries (fun _ => mem_unquoted_of_entry) hmade
      rw [disassemble, disassembleAll_eq_map]
      exact alike_predicate.2
        ⟨rfl, hall hunquoted hargs, rfl, _, by simpa using hps, .refl _⟩
    | planned e nt hrule hp hmade hm =>
      obtain rfl : nt = "" := huntagged.self
      refine alike_of_plans hp (outsideStatements_iff.1 hout).1 hn (fun u hu => ?_) hmade.2
        (hentries (fun _ => mem_unquoted_of_entry) hmade) hm
      obtain ⟨q, _, hfree, hk, _⟩ := hmade.mem hu
      exact isReserved_of_yields hg hk hfree

/-- Where no tag has a rule every plain document is restorable. -/
theorem restorable_plain {n : Node} (hn : n.Tidy) : plain.Restorable n := by
  induction n using induct_children with
  | step n ih =>
    have hchild : ∀ c ∈ n.children, plain.Restorable c := fun c hc => ih c hc (hn.child hc)
    have hkeys := (wellFormed_iff_children.1 hn.2).1
    have hsmart := (isPlain_iff_children.1 hn.1).1
    cases n with
    | leaf e v => exact .leaf e v
    | dict e t ps => exact .dict e t hkeys hchild
    | set e t es => exact .set e t hkeys hchild
    | predicate e t as nt ps =>
      exact .predicate e nt rfl (fun c hc => hchild c (List.mem_append_left _ hc)) hkeys
        fun c hc => hchild c (List.mem_append_right _ hc)
    | identity e i us => cases hsmart
    | claim e a b s x us => cases hsmart
    | verify e s us => cases hsmart
    | reachable e m vt vs ut uvs us => cases hsmart

theorem isStock_plain : plain.IsStock := by
  simp [IsStock, IsOwnRule, plain]

end Grammar

/-- What the standard grammar, with or without a keyring, makes of a plain document means the same
as the document, if outside of the statements of claims it holds no predicate `sign(..)`,
`verify(..)` or `reachable(..)`. The grammar without rules makes something of every such document,
whatever its tags, and that means the same too. -/
theorem assemble_means_like (ctx : Context) {n : Node} (hplain : n.isPlain = true)
    (hwell : n.WellFormed) (huntagged : n.Everywhere IsUntagged) :
    (∀ g : Grammar, (g = standard ∨ ∃ k, g = standard.withKeyring k) →
      n.OutsideStatements (fun v => ¬ v.IsTagged ["sign", "verify", "reachable"]) →
      ∀ m, (g.assemble ctx n).outcome.1 = .ok m → m.MeansLike n) ∧
    ∃ m, (plain.assemble ctx n).outcome.1 = .ok m ∧ m.MeansLike n := by
  have hmeans : ∀ {g : Grammar}, g.IsStock → ∀ {m : Node}, (g.assemble ctx n).Yields m →
      m.eqv n = true → m.MeansLike n := fun hg _ hm heqv =>
    meansLike_of_eqv (wellFormed_of_yields (hg.upholds _) hwell hm) hwell
      (untagged_of_yields (hg.upholds _) huntagged hm) huntagged heqv
  constructor
  · intro g hg hout m hm
    have hfacts : g.IsStock ∧ g.hasRule "signed" = true ∧ g.hasRule "verified" = true := by
      obtain rfl | ⟨k, rfl⟩ := hg
      · exact ⟨isStock_standard, rfl, rfl⟩
      · exact ⟨isStock_standard.withKeyring k, rfl, rfl⟩
    obtain ⟨hstock, hsigned, hverified⟩ := hfacts
    have hyields := Yields.of_outcome hm
    refine hmeans hstock hyields ?_
    rw [eqv_iff_alike (wellFormed_of_yields (hstock.upholds _) hwell hyields) hwell,
      disassemble_of_isPlain hplain]
    exact alike_of_yields hstock hsigned hverified ⟨hplain, hwell⟩ huntagged hout hyields
  · obtain ⟨m, hm, htimeless⟩ := (restorable_plain ⟨hplain, hwell⟩).exists_assemble ctx rfl
    rw [disassemble_of_isPlain hplain] at hm
    have hok : (plain.assemble ctx n).outcome.1 = .ok m := by
      rw [hm]
      rfl
    exact ⟨m, hok, hmeans isStock_plain (.of_outcome hok)
      (eqv_of_timeless_eq hwell.distinctKeys htimeless)⟩

/-- A note that quotes a request to sign, with its own field before those of the claim, under an
address. -/
def quotingNote : Node :=
  .dict none "" [(.predicate none "multiaddress" [ofString "/ip4/10.0.0.1/tcp/80"] "" [],
    .predicate none "signed" [.predicate none "sign" [ofString "hello"] "" []] ""
      [(ofString "note", ofString "draft"), (ofString "signature", ofBlob [1, 2]),
        (ofString "by", ofString "QmA")])]

theorem quotingNote_means_like :
    (∃ m, (standard.assemble {} quotingNote).outcome.1 = .ok m ∧ m.MeansLike quotingNote) ∧
      ∃ m, (plain.assemble {} quotingNote).outcome.1 = .ok m ∧ m.MeansLike quotingNote := by
  have hwell : quotingNote.WellFormed := by decide
  have huntagged : quotingNote.Everywhere IsUntagged := by decide
  have hout : quotingNote.OutsideStatements
      fun v => ¬ v.IsTagged ["sign", "verify", "reachable"] := by
    simp [quotingNote, ofString, ofBlob, IsTagged]
  have hmade : (standard.assemble {} quotingNote).outcome.1.isOk = true := by decide +kernel
  obtain ⟨hstandard, hplain⟩ := assemble_means_like {} rfl hwell huntagged
  refine ⟨?_, hplain⟩
  cases hm : (standard.assemble {} quotingNote).outcome.1 with
  | error x =>
    rw [hm] at hmade
    cases hmade
  | ok m => exact ⟨m, rfl, hstandard standard (.inl rfl) hout m hm⟩

end PeerRecords
