import PeerRecords.Proofs.Wire.Text
import PeerRecords.Proofs.Sendable
import PeerRecords.Proofs.Signature
import PeerRecords.Proofs.Reassembly

/-
  Signatures that travel.
  A signed claim is sent as the predicate `signed(s, by: p, signature: g, ..)`, in which no field of
  the user's hides the claim's own (`disassemble_signed`); what is received matches it part by part,
  so it shows the same signer and signature, and a statement with the same canonical bytes
  (`readsSignature_of_matches`). The message is computed again from what was received and comes out
  the same. Any keyring that accepts what the signer's keyring signs accepts it; for shared secrets
  that is any keyring with the secret that the signer has used.
  The text of a claim has three arrays and objects more around the statement, so a statement that
  fills the limit of what is read does not arrive (`nesting_of_sign`). User's fields have as many as
  before, or two more if something in them is to be signed, too (`depth_of_yields`).
-/

namespace PeerRecords

open Node Assembly Grammar

/-! ## Keyrings of shared secrets -/

namespace SharedSecrets

/-- The keyring that is made for a peer and then told to trust others, in order. -/
def trusting (localPeer : PeerId) (secret : List UInt8) (trusts : List (PeerId × List UInt8)) :
    SharedSecrets :=
  trusts.foldl (fun k t => k.trust t.1 t.2) (create localPeer secret)

theorem secret?_trust (k : SharedSecrets) (peer q : PeerId) (secret : List UInt8) :
    (k.trust peer secret).secret? q = if peer == q then some secret else k.secret? q := by
  unfold trust secret?
  rw [List.find?_cons]
  cases peer == q <;> rfl

/-- A keyring keeps its local peer and a secret for it, whoever else it is told to trust. -/
theorem trusting_local (p : PeerId) (secret : List UInt8) (trusts : List (PeerId × List UInt8)) :
    (trusting p secret trusts).localPeer = p ∧
      ∃ own, (trusting p secret trusts).secret? p = some own := by
  induction trusts using List.reverseRecOn with
  | nil => exact ⟨rfl, secret, by simp [trusting, create, secret?]⟩
  | append_singleton trusts t ih =>
    obtain ⟨hpeer, own, hown⟩ := ih
    unfold trusting at hpeer hown ⊢
    rw [List.foldl_append, List.foldl_cons, List.foldl_nil, secret?_trust]
    refine ⟨hpeer, ?_⟩
    by_cases h : (t.1 == p) = true
    · exact ⟨t.2, if_pos h⟩
    · exact ⟨own, by rw [if_neg h, hown]⟩

/-- A keyring accepts what another signs if it has the secret that the other signs with. -/
theorem verify_sign {k k' : SharedSecrets} {own : List UInt8}
    (hk : k.secret? k.localPeer = some own) (hk' : k'.secret? k.localPeer = some own)
    (message : List UInt8) :
    k'.toKeyring.verify k.localPeer message (k.toKeyring.sign message) = true := by
  simp [toKeyring, hk, hk']

end SharedSecrets

/-! ## What is sent -/

namespace Grammar

/-- A predicate `sign(s, ..)` becomes a claim over the plain form of its argument, with user's
fields made of its own, none of which has a name of the claim's. -/
theorem signed_of_yields {k : Keyring} {ctx : Context} {e : Expiry} {s x : Node} {nt : String}
    {ps : List (Node × Node)}
    (h : ((standard.withKeyring k).assemble ctx (.predicate e "sign" [s] nt ps)).Yields x) :
    ∃ us, x = .claim ctx.expiry .signed k.localPeer s.disassemble
        (Signature.create k s.disassemble).signature us ∧
      (∀ u ∈ us, isReserved claimNames u.1 = false) ∧
      (standard.withKeyring k).EntriesMade ctx claimNames ps us := by
  have hstock := isStock_standard.withKeyring k
  have hrule : (standard.withKeyring k).ruleFor? "sign" = some (.sign (some k)) := rfl
  rw [assemble_of_plans (hstock.of_yields h).1 hrule (.sign k s ps)] at h
  obtain ⟨qs, hqs, h⟩ := h.bind
  obtain ⟨us, hus, h⟩ := h.bind
  obtain rfl := yields_pure.1 h
  have hmade := entriesMade_of_yields hqs hus
  refine ⟨us, rfl, fun u hu => ?_, hmade⟩
  obtain ⟨p, _, hname, hkey, _⟩ := hmade.mem hu
  exact isReserved_of_yields hstock hkey hname

end Grammar

namespace Node

/-- The plain form of a claim shows its own fields first, if the user's leave them alone. -/
theorem disassemble_signed {e : Expiry} {p : PeerId} {s : Node} {g : List UInt8}
    {us : List (Node × Node)} (hus : ∀ u ∈ us, isReserved claimNames u.1 = false)
    (hkeys : areDistinct (us.map (·.1)) = true) :
    (claim e .signed p s g us).disassemble =
      .predicate e "signed" [s.disassemble] "" (claimFields p g ++ disassembleEntries us) := by
  rw [disassemble, layOver_claimFields hus hkeys]
  rfl

theorem matches_ofString {text : String} {n : Node} (h : Matches (ofString text) n) :
    ∃ e, n = .leaf e (.string text) := by
  cases n with
  | leaf e v =>
    refine ⟨e, ?_⟩
    cases v with
    | string s =>
      obtain rfl : text = s := by simpa [Matches, ofString, Leaf.alike] using h
      rfl
    | _ => simp [Matches, ofString, Leaf.alike] at h
  | _ => exact h.elim

theorem matches_ofBlob {bytes : List UInt8} {n : Node} (h : Matches (ofBlob bytes) n) :
    ∃ e, n = .leaf e (.blob bytes) := by
  cases n with
  | leaf e v =>
    refine ⟨e, ?_⟩
    cases v with
    | blob bs =>
      obtain rfl : bytes = bs := by simpa [Matches, ofBlob, Leaf.alike] using h
      rfl
    | _ => simp [Matches, ofBlob, Leaf.alike] at h
  | _ => exact h.elim

/-- What matches the predicate of a signed claim shows the same signer and signature. -/
theorem readsSignature_of_matches {e : Expiry} {p : PeerId} {s y : Node} {g : List UInt8}
    {fs : List (Node × Node)} (hp : p.Valid)
    (h : Matches (.predicate e "signed" [s] "" (claimFields p g ++ fs)) y) :
    ∃ e' s' gs, y = .predicate e' "signed" [s'] "" gs ∧ Matches s s' ∧
      ReadsSignature [s'] gs ⟨p, s'.disassemble, g⟩ := by
  cases y with
  | predicate e' t as nt gs =>
    obtain ⟨rfl, has, rfl, hgs⟩ := matches_predicate.1 h
    obtain ⟨s', _, hs, hnil, rfl⟩ := List.forall₂_cons_left_iff.1 has
    obtain rfl := List.forall₂_nil_left_iff.1 hnil
    obtain ⟨⟨ka, va⟩, _, ⟨hka, hva⟩, hrest, rfl⟩ := List.forall₂_cons_left_iff.1 hgs
    obtain ⟨⟨kb, vb⟩, gs, ⟨hkb, hvb⟩, _, rfl⟩ := List.forall₂_cons_left_iff.1 hrest
    obtain ⟨ea, rfl⟩ := matches_ofString hka
    obtain ⟨eb, rfl⟩ := matches_ofString hkb
    obtain ⟨ec, rfl⟩ := matches_ofString hva
    obtain ⟨ed, rfl⟩ := matches_ofBlob hvb
    exact ⟨e', s', _, rfl, hs, ⟨s', rfl, rfl⟩, rfl, hp, ⟨ed, rfl⟩⟩
  | _ => exact h.elim

end Node

/-! ## The nesting of what is assembled -/

namespace Node

/-- A predicate that is not to be signed. -/
def IsUnsigned : Node → Prop
  | .predicate _ t _ _ _ => t ≠ "sign"
  | _ => True

instance : DecidablePred IsUnsigned
  | .predicate _ t _ _ _ => inferInstanceAs (Decidable (t ≠ "sign"))
  | .leaf _ _ | .dict _ _ _ | .set _ _ _ | .identity _ _ _ | .claim _ _ _ _ _ _ | .verify _ _ _
  | .reachable _ _ _ _ _ _ _ => .isTrue trivial

/-- A claim's own fields have at most three arrays and objects open. -/
theorem entriesDepth_claimFields (p : PeerId) (g : List UInt8) :
    entriesDepth (claimFields p g) ≤ 3 := by
  rw [entriesDepth_le_iff]
  intro f hf
  rcases List.mem_pair.1 hf with rfl | rfl
  · exact ⟨Nat.lt_of_succ_lt (Nat.lt_succ_self 2), Nat.lt_of_succ_lt (Nat.lt_succ_self 2)⟩
  · exact ⟨Nat.lt_of_succ_lt (Nat.lt_succ_self 2), (depth_ofBlob g).trans_lt (Nat.lt_succ_self 2)⟩

/-- A claim's own fields open no more than those that they were read from. -/
theorem entriesDepth_claimFields_le {as : List Node} {ps : List (Node × Node)} {s : Signature}
    (hs : ReadsSignature as ps s) :
    entriesDepth (claimFields s.signer s.signature) ≤ entriesDepth ps := by
  obtain ⟨e, hblob⟩ := hs.signature
  obtain ⟨q, hq, hblob⟩ := Option.map_eq_some_iff.1 hblob
  have hbound := entriesDepth_le_iff.1 (Nat.le_refl (entriesDepth ps)) q
    (List.mem_of_find?_eq_some hq)
  have htwo : q.2.depth = 2 := by
    rw [hblob]
    exact depth_ofBlob s.signature
  have hown := entriesDepth_claimFields s.signer s.signature
  omega

/-- Laying fields over others opens no more than both have open. -/
theorem entriesDepth_layOver {own us : List (Node × Node)} {m : Nat} (hown : entriesDepth own ≤ m)
    (hus : entriesDepth us ≤ m) : entriesDepth (layOver own us) ≤ m := by
  rw [entriesDepth_le_iff] at hown hus ⊢
  refine forall_entryNodes (P := fun c => c.depth < m).1 fun c hc => ?_
  obtain hc | hc := mem_entryNodes_layOver hc
  · exact forall_entryNodes (P := fun c => c.depth < m).2 hown c hc
  · exact forall_entryNodes (P := fun c => c.depth < m).2 hus c hc

/-- The predicate that a smart node shows opens at most so much more than one whose arguments and
fields it shows, if its own fields do. -/
theorem depth_shown {e e' : Expiry} {t u nt : String} {as bs : List Node}
    {ps own us : List (Node × Node)} {k : Nat}
    (hargs : elementsDepth bs ≤ max (elementsDepth as) (entriesDepth ps) + k)
    (hown : entriesDepth own ≤ max (elementsDepth as) (entriesDepth ps) + k)
    (hus : entriesDepth us ≤ entriesDepth ps + k) :
    (predicate e' u bs "" (layOver own us)).depth ≤ (predicate e t as nt ps).depth + k := by
  have hfields := entriesDepth_layOver hown (hus.trans (Nat.add_le_add_right (le_max_right _ _) k))
  rw [depth_predicate, depth_predicate]
  omega

section

variable {e e' : Expiry} {t nt : String} {as : List Node} {ps us : List (Node × Node)} {k : Nat}

theorem depth_identity_le {x : Node} (id : Identity) (hx : x ∈ as)
    (hus : entriesDepth (disassembleEntries us) ≤ entriesDepth ps + k) :
    (identity e' id us).disassemble.depth ≤ (predicate e t as nt ps).depth + k := by
  have hone := depth_pos x
  have hle := elementsDepth_le_iff.1 (Nat.le_refl (elementsDepth as)) x hx
  refine depth_shown ?_ (Nat.zero_le _) hus
  rw [elementsDepth_le_iff, List.forall_mem_singleton, depth_ofString]
  omega

theorem depth_claim_le (a : Assurance) {s : Signature} {x : Node} (hs : s.statement = x.disassemble)
    (hx : x.isPlain = true) (hle : x.depth ≤ elementsDepth as)
    (hown : entriesDepth (claimFields s.signer s.signature) ≤
      max (elementsDepth as) (entriesDepth ps) + k)
    (hus : entriesDepth (disassembleEntries us) ≤ entriesDepth ps + k) :
    (claim e' a s.signer s.statement s.signature us).disassemble.depth ≤
      (predicate e t as nt ps).depth + k := by
  refine depth_shown ?_ hown hus
  rw [hs, disassemble_disassemble, disassemble_of_isPlain hx, elementsDepth_le_iff,
    List.forall_mem_singleton]
  omega

end

end Node

namespace Grammar

/-- What a plan comes to opens as many arrays and objects as its predicate, if its fields do, or two
more if it signs: then the claim shows its signature in a field. -/
theorem depth_of_plans {rule : TagRule} {ctx : Context} {e : Expiry} {t nt : String}
    {as : List Node} {ps us : List (Node × Node)} {p : Plan} {m : Node} {k : Nat}
    (hp : rule.Plans as ps p) (hprobe : ∀ probe, rule ≠ .reachable probe)
    (hk : 2 ≤ k ∨ rule.tag ≠ "sign") (has : ∀ a ∈ as, a.isPlain = true)
    (hus : entriesDepth (disassembleEntries us) ≤ entriesDepth ps + k)
    (hm : (p.finish ctx us).Yields m) :
    m.disassemble.depth ≤ (predicate e t as nt ps).depth + k := by
  have hbound := elementsDepth_le_iff.1 (Nat.le_refl (elementsDepth as))
  cases hp with
  | record hx =>
    obtain rfl := yields_pure.1 hm
    exact depth_identity_le _ List.mem_cons_self hus
  | peer hx hid =>
    obtain rfl := yields_pure.1 hm
    exact depth_identity_le _ List.mem_cons_self hus
  | cid hx hvalue =>
    obtain rfl := yields_pure.1 hm
    exact depth_identity_le _ List.mem_cons_self hus
  | multiaddress hx haddr =>
    obtain rfl := yields_pure.1 hm
    exact depth_identity_le _ List.mem_cons_self hus
  | @signed _ _ s hs =>
    obtain rfl := yields_pure.1 hm
    have hown := entriesDepth_claimFields_le hs
    obtain ⟨x, rfl, hx⟩ := hs.statement
    exact depth_claim_le _ hx (has x List.mem_cons_self) (hbound x List.mem_cons_self) (by omega)
      hus
  | sign keyring x =>
    obtain rfl := yields_pure.1 hm
    have htwo : 2 ≤ k := hk.resolve_right fun h => h rfl
    have hown := entriesDepth_claimFields (Signature.create keyring x.disassemble).signer
      (Signature.create keyring x.disassemble).signature
    have hpos := depth_pos x
    have hle := hbound x List.mem_cons_self
    exact depth_claim_le (s := .create keyring x.disassemble) _ rfl (has x List.mem_cons_self) hle
      (by omega) hus
  | @accepted keyring e' nt' inner fields _ s hs hk =>
    obtain rfl := yields_pure.1 hm
    have hown := entriesDepth_claimFields_le hs
    obtain ⟨x, rfl, hx⟩ := hs.statement
    have hinner := hbound _ List.mem_cons_self
    rw [depth_predicate] at hinner
    have hx' := elementsDepth_le_iff.1 (Nat.le_refl (elementsDepth [x])) x List.mem_cons_self
    have hplain := has _ List.mem_cons_self
    exact depth_claim_le _ hx ((isPlain_iff_children.1 hplain).2 x List.mem_cons_self) (by omega)
      (by omega) hus
  | refused hs hk =>
    obtain rfl := yields_pure.1 hm
    have hplain := has _ List.mem_cons_self
    refine depth_shown ?_ (Nat.zero_le _) hus
    rw [disassemble_disassemble, disassemble_of_isPlain hplain]
    omega
  | @verified keyring _ _ s hs hk =>
    obtain rfl := yields_pure.1 hm
    have hown := entriesDepth_claimFields_le hs
    obtain ⟨x, rfl, hx⟩ := hs.statement
    exact depth_claim_le _ hx (has x List.mem_cons_self) (hbound x List.mem_cons_self) (by omega)
      hus
  | reachable hmode hcs => exact absurd rfl (hprobe _)

section

variable {g : Grammar} {ctx : Context} {k : Nat}

/-- Entries that are made open at most so much more than those they are made of, if each key and
value does. -/
theorem entriesDepth_of_made {reserved : List String} {ps us : List (Node × Node)}
    (hmade : g.EntriesMade ctx reserved ps us)
    (hps : ∀ c ∈ entryNodes ps, ∀ {m}, (g.assemble ctx c).Yields m →
      m.disassemble.depth ≤ c.depth + k) :
    entriesDepth (disassembleEntries us) ≤ entriesDepth ps + k := by
  rw [entriesDepth_le_iff, disassembleEntries_eq_map, List.forall_mem_map]
  intro u hu
  show u.1.disassemble.depth < _ ∧ u.2.disassemble.depth < _
  obtain ⟨p, hp, _, hkey, hvalue⟩ := hmade.mem hu
  have hbound := entriesDepth_le_iff.1 (Nat.le_refl (entriesDepth ps)) p hp
  have hkey := hps p.1 (fst_mem_entryNodes hp) hkey
  have hvalue := hps p.2 (snd_mem_entryNodes hp) hvalue
  exact ⟨by omega, by omega⟩

theorem elementsDepth_of_made {ns ms : List Node}
    (hmade : List.Forall₂ (fun n m => (g.assemble ctx n).Yields m) ns ms)
    (hns : ∀ n ∈ ns, ∀ {m}, (g.assemble ctx n).Yields m → m.disassemble.depth ≤ n.depth + k) :
    ∀ m ∈ ms, m.disassemble.depth ≤ elementsDepth ns + k := by
  intro m hm
  obtain ⟨n, hn, hnm⟩ := exists_of_forall₂_right hmade hm
  have hbound := elementsDepth_le_iff.1 (Nat.le_refl (elementsDepth ns)) n hn
  have hmine := hns n hn hnm
  omega

/-- Assembly without probing opens as many arrays and objects as were open, or two more if something
is signed: those of the signature that is added to a claim. -/
theorem depth_of_yields (hg : g.IsStock) (hprobe : ¬ g.Probes) {n m : Node}
    (hn : n.Everywhere fun v => v.isSmart = false ∧ (2 ≤ k ∨ v.IsUnsigned))
    (h : (g.assemble ctx n).Yields m) : m.disassemble.depth ≤ n.depth + k := by
  induction n using induct_children generalizing m with
  | step n ih =>
    have hparts : ∀ c ∈ n.children, ∀ {m}, (g.assemble ctx c).Yields m →
        m.disassemble.depth ≤ c.depth + k := fun c hc m hm => ih c hc (hn.child hc) hm
    cases hg.assembled_of_yields h with
    | leaf e v => exact Nat.le_add_right _ k
    | dict e t hmade =>
      rw [disassemble, depth_dict, depth_dict]
      have hentries := entriesDepth_of_made hmade hparts
      omega
    | @set e t es fs hmade =>
      rw [disassemble, depth_set, depth_set, disassembleAll_eq_map]
      have hfs : elementsDepth ((fs.foldl NodeSet.addTo []).map disassemble) ≤
          elementsDepth es + k := by
        rw [elementsDepth_le_iff, List.forall_mem_map]
        intro b hb
        obtain hb | hb := NodeSet.mem_addAll hb
        · cases hb
        · exact elementsDepth_of_made hmade hparts b hb
      omega
    | @predicate e t nt as bs ps qs hrule hmade hqs =>
      rw [disassemble, depth_predicate, depth_predicate, disassembleAll_eq_map]
      have hbs : elementsDepth (bs.map disassemble) ≤ elementsDepth as + k := by
        rw [elementsDepth_le_iff, List.forall_mem_map]
        exact elementsDepth_of_made hmade fun a ha => hparts a (List.mem_append_left _ ha)
      have hentries := entriesDepth_of_made hqs fun c hc => hparts c (List.mem_append_right _ hc)
      omega
    | @planned e nt rule as ps us p m hrule hp hus hm =>
      obtain ⟨hmem, htag⟩ := ruleFor?_eq_some hrule
      have hsigns : 2 ≤ k ∨ rule.tag ≠ "sign" := hn.self.2
      have hentries := entriesDepth_of_made hus fun c hc => hparts c (List.mem_append_right _ hc)
      refine depth_of_plans hp ?_ hsigns (fun a ha => ?_) hentries hm
      · rintro probe rfl
        exact hprobe ⟨probe, hmem⟩
      · exact isPlain_iff.2 ((hn.child (List.mem_append_left _ ha)).mono fun v hv => hv.1)

end

end Grammar

/-! ## What is received -/

namespace Grammar

/-- A predicate `verify(signed(..))` whose claim the keyring accepts becomes verified. -/
theorem assemble_verify_of_reads {k : Keyring} {as : List Node} {gs : List (Node × Node)}
    {s : Signature} (hs : ReadsSignature as gs s) (hk : s.verifies k = true) (ctx : Context)
    (e e' : Expiry) (nt nt' : String) :
    (standard.withKeyring k).assemble ctx
        (.predicate e "verify" [.predicate e' "signed" as nt' gs] nt []) =
      pure (.claim ctx.expiry .verified s.signer s.statement s.signature []) := by
  have hrule : (standard.withKeyring k).ruleFor? "verify" = some (.verify (some k)) := rfl
  rw [assemble_of_plans rfl hrule (.accepted hs hk)]
  rfl

/-- The text of a signed claim has three arrays and objects more around the statement, and around
the user's fields it has as many as they have in a dict, or two more if something in them is
signed. -/
theorem nesting_of_sign {k : Keyring} {ctx : Context} {e : Expiry} {s x : Node}
    {us : List (Node × Node)} (hplain : (predicate e "sign" [s] "" us).isPlain = true) {j : Nat}
    (hj : 2 ≤ j ∨ (dict none "" us).Everywhere IsUnsigned)
    (hx : ((standard.withKeyring k).assemble ctx (.predicate e "sign" [s] "" us)).Yields x) :
    s.nesting + 3 ≤ x.nesting ∧
      x.nesting ≤ max 6 (max (s.nesting + 3) ((dict none "" us).nesting + j)) := by
  obtain ⟨vs, rfl, hnames, hmade⟩ := signed_of_yields hx
  have hparts := (isPlain_iff_children.1 hplain).2
  have hs : s.isPlain = true := hparts s List.mem_cons_self
  have hus : ∀ c ∈ entryNodes us, c.isPlain = true :=
    fun c hc => hparts c (List.mem_cons_of_mem s hc)
  have hfields : entriesDepth (disassembleEntries vs) ≤ entriesDepth us + j := by
    refine entriesDepth_of_made hmade fun c hc m hm => ?_
    refine depth_of_yields (isStock_standard.withKeyring k) (not_probes_withKeyring k) ?_ hm
    intro v hv
    refine ⟨isPlain_iff.1 (hus c hc) v hv, hj.imp_right fun hall => ?_⟩
    exact hall.child (c := c) hc v hv
  have hdict : (dict none "" us).isPlain = true := isPlain_iff_children.2 ⟨rfl, hus⟩
  have hshown : entriesDepth (claimFields k.localPeer (Signature.create k s).signature ++
      disassembleEntries vs) ≤ max 3 (entriesDepth us + j) := by
    have hown := entriesDepth_claimFields k.localPeer (Signature.create k s).signature
    have hown := hown.trans (le_max_left 3 (entriesDepth us + j))
    have hfields := hfields.trans (le_max_right 3 (entriesDepth us + j))
    rw [entriesDepth_le_iff] at hown hfields ⊢
    exact List.forall_mem_append.2 ⟨hown, hfields⟩
  have hargument : elementsDepth [s] = s.depth := Nat.max_zero _
  rw [nesting_of_isPlain hs, nesting_of_isPlain hdict, nesting_eq_depth,
    disassemble_signed hnames hmade.2, disassemble_disassemble, disassemble_of_isPlain hs,
    depth_predicate, depth_dict, hargument]
  omega

/-- A signed claim is received just if its text is not nested too deeply. Every keyring that accepts
what the signer's keyring signs then verifies it, with the signer's name and an equal statement. -/
theorem signed_claim_travels {k : Keyring} (hp : k.localPeer.Valid) {ctx : Context} {e : Expiry}
    {s x : Node} {us : List (Node × Node)} (htidy : (predicate e "sign" [s] "" us).Tidy)
    (huntagged : (predicate e "sign" [s] "" us).Everywhere IsUntagged)
    (hx : ((standard.withKeyring k).assemble ctx (.predicate e "sign" [s] "" us)).Yields x) :
    ((∃ y, unmarshal x.marshal = .ok y) ↔ x.nesting ≤ Json.nestingLimit) ∧
    ∀ y, unmarshal x.marshal = .ok y → ∀ k' : Keyring,
      (∀ message, k'.verify k.localPeer message (k.sign message) = true) →
      ∀ (ctx' : Context) (e' : Expiry), ∃ s' g,
        (standard.withKeyring k').assemble ctx' (.predicate e' "verify" [y] "" []) =
          pure (.claim ctx'.expiry .verified k.localPeer s' g []) ∧ s'.eqv s = true := by
  have hstock := isStock_standard.withKeyring k
  have hwell := wellFormed_of_yields (hstock.upholds _) htidy.2 hx
  have hsend := sendable_disassemble hwell (untagged_of_yields (hstock.upholds _) huntagged hx)
  obtain ⟨y, hread, hmatch⟩ := Wire.toNode_ofPlain hsend
  have hreceived : unmarshal x.marshal =
      if x.nesting ≤ Json.nestingLimit then .ok y else .error .format := by
    rw [unmarshal_marshal]
    exact congrArg (fun r => if x.nesting ≤ Json.nestingLimit then r else .error .format) hread
  refine ⟨?_, fun y' hy' k' hk' ctx' e' => ?_⟩
  · rw [hreceived]
    split
    · rename_i hle
      exact ⟨fun _ => hle, fun _ => ⟨y, rfl⟩⟩
    · rename_i hle
      exact ⟨fun ⟨_, h⟩ => (nomatch h), fun h => absurd h hle⟩
  rw [hreceived] at hy'
  split at hy'
  · cases hy'
    obtain ⟨vs, rfl, hnames, hmade⟩ := signed_of_yields hx
    rw [disassemble_signed hnames hmade.2, disassemble_disassemble] at hmatch
    obtain ⟨e'', s', gs, rfl, hs, hshown⟩ := readsSignature_of_matches hp hmatch
    have hstatement : s.Tidy := htidy.child (by simp [children])
    have hreceived' : s'.Tidy := (Wire.sendable_of_toNode hread).tidy.child (by simp [children])
    rw [disassemble_of_isPlain hstatement.1] at hs
    have hcanonical : s'.canonical = s.disassemble.canonical := by
      unfold canonical
      rw [disassemble_disassemble, disassemble_of_isPlain hstatement.1,
        disassemble_of_isPlain hreceived'.1]
      exact plainBytes_eq_of_alike hs.alike.symm
    have hverifies : (Signature.mk k.localPeer s'.disassemble
        (Signature.create k s.disassemble).signature).verifies k' = true := by
      rw [verifies_disassemble, Signature.verifies, Signature.message, hcanonical]
      exact hk' _
    refine ⟨s'.disassemble, _, assemble_verify_of_reads hshown hverifies ctx' e' e'' "" "", ?_⟩
    rw [disassemble_of_isPlain hreceived'.1]
    exact (hreceived'.eqv_iff hstatement).2 hs.alike.symm
  · cases hy'

end Grammar

/-! ## Local signatures -/

/-- What a peer signs with its own keyring arrives, and every keyring with the secret it was signed
with verifies it. Three arrays and objects must be to spare in the text of the statement. The user's
fields, as a dict, must stay within the limit, with two to spare if something in them is to be
signed, too. -/
theorem local_signature_travels {p : PeerId} (hp : p.Valid) (secret : List UInt8)
    (trusts : List (PeerId × List UInt8)) {ctx : Context} {e : Expiry} {s x : Node}
    {us : List (Node × Node)} (htidy : (predicate e "sign" [s] "" us).Tidy)
    (huntagged : (predicate e "sign" [s] "" us).Everywhere IsUntagged)
    (hs : s.nesting + 3 ≤ Json.nestingLimit)
    (hus : (dict none "" us).nesting + 2 ≤ Json.nestingLimit ∨
      (dict none "" us).nesting ≤ Json.nestingLimit ∧ (dict none "" us).Everywhere IsUnsigned)
    (hx : ((standard.withKeyring (SharedSecrets.trusting p secret trusts).toKeyring).assemble ctx
      (.predicate e "sign" [s] "" us)).outcome.1 = .ok x) :
    ∃ y, unmarshal x.marshal = .ok y ∧ ∀ k : SharedSecrets,
      k.secret? p = (SharedSecrets.trusting p secret trusts).secret? p →
      ∀ (ctx' : Context) (e' : Expiry), ∃ s' g,
        ((standard.withKeyring k.toKeyring).assemble ctx'
          (.predicate e' "verify" [y] "" [])).outcome.1 =
            .ok (.claim ctx'.expiry .verified p s' g []) ∧ s'.eqv s = true := by
  obtain ⟨hlocal, own, hown⟩ := SharedSecrets.trusting_local p secret trusts
  have hpeer : (SharedSecrets.trusting p secret trusts).toKeyring.localPeer = p := hlocal
  have hyields := Yields.of_outcome hx
  obtain ⟨harrives, hverified⟩ := signed_claim_travels (hpeer.symm ▸ hp) htidy huntagged hyields
  have hlimit : x.nesting ≤ Json.nestingLimit := by
    unfold Json.nestingLimit at hs hus ⊢
    obtain hus | ⟨hus, hunsigned⟩ := hus
    · have hnesting := (nesting_of_sign htidy.1 (.inl (Nat.le_refl 2)) hyields).2
      omega
    · have hnesting := (nesting_of_sign htidy.1 (j := 0) (.inr hunsigned) hyields).2
      omega
  obtain ⟨y, hy⟩ := harrives.2 hlimit
  refine ⟨y, hy, fun k hk ctx' e' => ?_⟩
  have haccepts : ∀ message, k.toKeyring.verify
      (SharedSecrets.trusting p secret trusts).toKeyring.localPeer message
      ((SharedSecrets.trusting p secret trusts).toKeyring.sign message) = true :=
    SharedSecrets.verify_sign (hlocal.symm ▸ hown) (hlocal.symm ▸ hk.trans hown)
  obtain ⟨s', g, hassemble, hsame⟩ := hverified y hy k.toKeyring haccepts ctx' e'
  refine ⟨s', g, ?_, hsame⟩
  rw [hassemble, hpeer]
  rfl

/-- A statement with a number that is written with zeros, and a note. -/
def notedVisits : Node :=
  .dict none "" [(ofString "visits", .leaf none (.float ⟨⟨150, -2⟩, by decide⟩)),
    (ofString "seen", .set none "" [ofString "b", ofString "a"])]

/-- A note, and a request to sign it, too. -/
def signedNote : List (Node × Node) :=
  [(ofString "note", ofString "x"), (ofString "own", .predicate none "sign" [ofString "x"] "" [])]

/-- The peer's keyring after it was given a newer secret for itself. -/
def renewedSecret : SharedSecrets := .trusting ⟨"QmA"⟩ [1] [(⟨"QmB"⟩, [3]), (⟨"QmA"⟩, [2])]

theorem notedVisits_travels :
    ((⟨"QmA"⟩ : PeerId).Valid ∧ (predicate none "sign" [notedVisits] "" signedNote).Tidy ∧
      (predicate none "sign" [notedVisits] "" signedNote).Everywhere IsUntagged ∧
      notedVisits.nesting + 3 ≤ Json.nestingLimit ∧
      (dict none "" signedNote).nesting + 2 ≤ Json.nestingLimit) ∧
    ∃ x y s g, ((standard.withKeyring renewedSecret.toKeyring).assemble {}
        (predicate none "sign" [notedVisits] "" signedNote)).outcome.1 = .ok x ∧
      unmarshal x.marshal = .ok y ∧
      ((standard.withKeyring
        ((SharedSecrets.create ⟨"QmC"⟩ []).trust ⟨"QmA"⟩ [2]).toKeyring).assemble {}
          (.predicate none "verify" [y] "" [])).outcome.1 =
          .ok (.claim none .verified ⟨"QmA"⟩ s g []) := by
  have hp : (⟨"QmA"⟩ : PeerId).Valid := by decide +kernel
  have htidy : (predicate none "sign" [notedVisits] "" signedNote).Tidy := by
    unfold Tidy
    decide +kernel
  have huntagged : (predicate none "sign" [notedVisits] "" signedNote).Everywhere IsUntagged := by
    decide +kernel
  have hs : notedVisits.nesting + 3 ≤ Json.nestingLimit := by decide +kernel
  have hus : (dict none "" signedNote).nesting + 2 ≤ Json.nestingLimit := by decide +kernel
  have hx : ((standard.withKeyring renewedSecret.toKeyring).assemble {}
    (predicate none "sign" [notedVisits] "" signedNote)).outcome.1 = .ok _ := rfl
  obtain ⟨y, hy, hverified⟩ := local_signature_travels hp [1] [(⟨"QmB"⟩, [3]), (⟨"QmA"⟩, [2])] htidy
    huntagged hs (.inl hus) hx
  obtain ⟨s, g, hassemble, _⟩ := hverified ((SharedSecrets.create ⟨"QmC"⟩ []).trust ⟨"QmA"⟩ [2])
    rfl {} none
  exact ⟨⟨hp, htidy, huntagged, hs, hus⟩, _, y, s, g, rfl, hy, hassemble⟩

/-- Thirty-one dicts inside each other can be read and signed, but what is signed does not
arrive. -/
theorem not_deep_signature_travels : ¬ ∀ (p : PeerId) (secret : List UInt8)
    (trusts : List (PeerId × List UInt8)) (ctx : Context) (e : Expiry) (s x : Node)
    (us : List (Node × Node)), p.Valid → (predicate e "sign" [s] "" us).Tidy →
    (predicate e "sign" [s] "" us).Everywhere IsUntagged → s.nesting < Json.nestingLimit →
    (dict none "" us).nesting < Json.nestingLimit →
    ((standard.withKeyring (SharedSecrets.trusting p secret trusts).toKeyring).assemble ctx
      (.predicate e "sign" [s] "" us)).outcome.1 = .ok x →
    ∃ y, unmarshal x.marshal = .ok y := by
  intro h
  have hp : (⟨"QmA"⟩ : PeerId).Valid := by decide +kernel
  have htidy : (predicate none "sign" [nestedDict 31] "" []).Tidy := by
    unfold Tidy
    decide +kernel
  have huntagged : (predicate none "sign" [nestedDict 31] "" []).Everywhere IsUntagged := by
    decide +kernel
  have hx : ((standard.withKeyring (SharedSecrets.trusting ⟨"QmA"⟩ [1] []).toKeyring).assemble {}
    (.predicate none "sign" [nestedDict 31] "" [])).outcome.1 = .ok _ := rfl
  have hdeep : Json.nestingLimit < (nestedDict 31).nesting + 3 := by decide +kernel
  have harrives := h ⟨"QmA"⟩ [1] [] {} none _ _ [] hp htidy huntagged (by decide +kernel)
    (by decide +kernel) hx
  have hnesting := nesting_of_sign htidy.1 (.inl (Nat.le_refl 2)) (Yields.of_outcome hx)
  have hreceived :=
    (signed_claim_travels (k := (SharedSecrets.trusting ⟨"QmA"⟩ [1] []).toKeyring) hp
      htidy huntagged (Yields.of_outcome hx)).1.1 harrives
  exact absurd (hdeep.trans_le (hnesting.1.trans hreceived)) (Nat.lt_irrefl _)

end PeerRecords
