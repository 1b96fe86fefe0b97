import PeerRecords.Assembly
import PeerRecords.Proofs.Node.Distinct

/-
  What assembly makes.
  `Made g ctx n m` lists the ways in which the grammar `g` makes `m` of `n`, one for each form of
  the result, and `made_of_yields` says that there is no other; nothing else about assembly goes
  back to its definition. `everywhere_of_yields` carries a property of single nodes through a whole
  assembly: it is enough to see it at the root of whatever is made.
-/

namespace PeerRecords

open Node Assembly

/-! ## Probing -/

/-- What a reachability check starts from and ends with. -/
structure Sorted (ctx : Context) (candidates : List Node) (found : List Node × List Node) :
    Prop where
  verified : ∀ v ∈ found.1, ∃ s, v = .leaf ctx.expiry (.string s)
  unverified : ∀ u ∈ found.2, ∃ c ∈ candidates, u = c.withExpiry ctx.expiry
  distinct : areDistinct found.1 = true ∧ areDistinct found.2 = true

theorem Sorted.addVerified {ctx : Context} {cs : List Node} {found : List Node × List Node}
    (h : Sorted ctx cs found) (s : String) :
    Sorted ctx cs (NodeSet.addTo found.1 (.leaf ctx.expiry (.string s)), found.2) where
  verified v hv := (NodeSet.mem_addTo hv).elim (h.verified v) fun he => ⟨s, he⟩
  unverified := h.unverified
  distinct := ⟨NodeSet.areDistinct_addTo _ h.distinct.1, h.distinct.2⟩

theorem Sorted.addUnverified {ctx : Context} {cs : List Node} {found : List Node × List Node}
    (h : Sorted ctx cs found) {c : Node} (hc : c ∈ cs) :
    Sorted ctx cs (found.1, NodeSet.addTo found.2 (c.withExpiry ctx.expiry)) where
  verified := h.verified
  unverified u hu := (NodeSet.mem_addTo hu).elim (h.unverified u) fun he => ⟨c, hc, he⟩
  distinct := ⟨h.distinct.1, NodeSet.areDistinct_addTo _ h.distinct.2⟩

theorem sorted_probeAll {probe : Probe} {ctx : Context} {mode : ProbeMode} {all cs : List Node}
    {found ends : List Node × List Node} (hcs : ∀ c ∈ cs, c ∈ all) (hfound : Sorted ctx all found)
    (h : (probeAll probe ctx mode cs found).Yields ends) : Sorted ctx all ends := by
  induction cs generalizing found with
  | nil =>
    obtain rfl := yields_pure.1 h
    exact hfound
  | cons c cs ih =>
    have hc := hcs c List.mem_cons_self
    have hrest : ∀ c ∈ cs, c ∈ all := fun d hd => hcs d (List.mem_cons_of_mem _ hd)
    unfold probeAll at h
    split at h
    · exact ih hrest (hfound.addUnverified hc) h
    · obtain ⟨reached, _, h⟩ := h.bind
      split at h
      · exact ih hrest (hfound.addVerified _) h
      · exact ih hrest (hfound.addUnverified hc) h

/-! ## Signatures that are read -/

theorem onlyArgument_eq_ok {tag : String} {args : List Node} {n : Node}
    (h : onlyArgument tag args = .ok n) : args = [n] := by
  unfold onlyArgument at h
  split at h
  · cases h
    rfl
  · cases h

theorem readSignature_eq_ok {tag : String} {args : List Node} {named : List (Node × Node)}
    {s : Signature} (h : readSignature tag args named = .ok s) :
    ∃ x, args = [x] ∧ s.statement = x.disassemble := by
  unfold readSignature at h
  obtain ⟨x, hx, h⟩ := bind_eq_ok.1 h
  refine ⟨x, onlyArgument_eq_ok hx, ?_⟩
  cases hby : (namedArgument? "by" named).bind Node.string? with
  | none =>
    simp only [hby] at h
    cases h
  | some p =>
    simp only [hby] at h
    obtain ⟨signer, _, h⟩ := bind_eq_ok.1 h
    split at h
    · cases h
      rfl
    · cases h

theorem requireKeyring_eq_ok {keyring : Option Keyring} {k : Keyring}
    (h : requireKeyring keyring = .ok k) : keyring = some k := by
  cases keyring with
  | none => cases h
  | some k' =>
    cases h
    rfl

theorem within_argument {e : Expiry} {t nt : String} {x : Node} {as : List Node}
    {ps : List (Node × Node)} (h : x ∈ as) : x.Within (.predicate e t as nt ps) :=
  (Within.refl x).of_mem (List.mem_append_left _ h)

theorem within_named {name : String} {e e' : Expiry} {t nt u : String} {as es : List Node}
    {ps : List (Node × Node)} (h : namedArgument? name ps = some (.set e' u es)) {x : Node}
    (hx : x ∈ es) : x.Within (.predicate e t as nt ps) := by
  obtain ⟨p, hp, hset⟩ := Option.map_eq_some_iff.1 h
  have hmem : p.2 ∈ children (.predicate e t as nt ps) :=
    List.mem_append_right _ (snd_mem_entryNodes (List.mem_of_find?_eq_some hp))
  rw [hset] at hmem
  exact ((Within.refl x).of_mem (n := .set e' u es) hx).of_mem hmem

/-- What is tried again stands in the check. -/
theorem within_readRetried {e : Expiry} {t nt : String} {as cs : List Node}
    {ps : List (Node × Node)} (h : readRetried ps = .ok cs) :
    ∀ c ∈ cs, c.Within (.predicate e t as nt ps) := by
  intro c hc
  unfold readRetried at h
  split at h
  · cases h
    exact absurd hc List.not_mem_nil
  · rename_i e' u es hnamed
    cases h
    exact within_named hnamed hc
  · cases h

namespace Grammar

/-! ## Reserved names -/

@[simp] theorem isReserved_nil (n : Node) : isReserved [] n = false := by
  unfold isReserved
  cases n.string? <;> rfl

theorem isReserved_withExpiry (reserved : List String) (e : Expiry) (n : Node) :
    isReserved reserved (n.withExpiry e) = isReserved reserved n := by
  rw [isReserved, string?_withExpiry, isReserved]

theorem isReserved_disassemble (reserved : List String) (n : Node) :
    isReserved reserved n.disassemble = isReserved reserved n := by
  rw [isReserved, string?_disassemble, isReserved]

/-! ## What is made of a node -/

/-- The rules of a grammar that are not the library's. -/
def IsOwnRule (g : Grammar) (rule : Rule) : Prop :=
  rule ∈ g.rules ∨ ∃ tag, .custom tag rule ∈ g.tagRules

/-- What the rules of the grammar's own relate to the nodes they are given. -/
def Upholds (g : Grammar) (R : Context → Node → Node → Prop) : Prop :=
  ∀ rule, g.IsOwnRule rule → ∀ ctx n m, rule ctx n = .ok (some m) → R ctx n m

/-- A grammar without rules of its own: the standard one, with or without a keyring and a probe. -/
def IsStock (g : Grammar) : Prop := ∀ rule, ¬ g.IsOwnRule rule

theorem IsStock.upholds {g : Grammar} (h : g.IsStock) (R : Context → Node → Node → Prop) :
    g.Upholds R := fun rule hrule => absurd hrule (h rule)

theorem isStock_standard : standard.IsStock := by
  simp [IsStock, IsOwnRule, standard, setKeyring, register, plain]

theorem IsStock.register {g : Grammar} (h : g.IsStock) {r : TagRule}
    (hr : ∀ tag rule, r ≠ .custom tag rule) : (g.register r).IsStock := by
  rintro rule (hrule | ⟨tag, hrule⟩)
  · exact h rule (.inl hrule)
  · rcases List.mem_cons.1 hrule with hrule | hrule
    · exact hr tag rule hrule.symm
    · exact h rule (.inr ⟨tag, hrule⟩)

theorem IsStock.withKeyring {g : Grammar} (h : g.IsStock) (k : Keyring) :
    (g.withKeyring k).IsStock := by
  refine IsStock.register (IsStock.register (h.register ?_) ?_) ?_ <;> simp

theorem IsStock.withProbe {g : Grammar} (h : g.IsStock) (probe : Probe) :
    (g.withProbe probe).IsStock := h.register (by simp)

/-- Claims are checked against the keyring. -/
def ChecksWith (g : Grammar) (k : Keyring) : Prop :=
  .verify (some k) ∈ g.tagRules ∨ .verified (some k) ∈ g.tagRules

/-- Reachability is checked. -/
def Probes (g : Grammar) : Prop := ∃ probe, .reachable probe ∈ g.tagRules

/-- Entries made one by one of those that are not reserved; no two of their keys are equal. -/
def EntriesMade (g : Grammar) (ctx : Context) (reserved : List String)
    (ps qs : List (Node × Node)) : Prop :=
  List.Forall₂ (fun p q => (g.assemble ctx p.1).Yields q.1 ∧ (g.assemble ctx p.2).Yields q.2)
    (ps.filter fun p => !isReserved reserved p.1) qs ∧ areDistinct (qs.map (·.1)) = true

/-- The ways in which a grammar makes a document of a node. -/
inductive Made (g : Grammar) (ctx : Context) : Node → Node → Prop where
  | leaf (e : Expiry) (v : Leaf) : Made g ctx (.leaf e v) (.leaf ctx.expiry v)
  | dict (e : Expiry) (t : String) {ps qs : List (Node × Node)} (h : g.EntriesMade ctx [] ps qs) :
    Made g ctx (.dict e t ps) (.dict ctx.expiry t qs)
  | set (e : Expiry) (t : String) {es fs : List Node}
      (h : List.Forall₂ (fun n m => (g.assemble ctx n).Yields m) es fs) :
    Made g ctx (.set e t es) (.set ctx.expiry t (fs.foldl NodeSet.addTo []))
  | predicate (e : Expiry) (t nt : String) {as bs : List Node} {ps qs : List (Node × Node)}
      (hargs : List.Forall₂ (fun n m => (g.assemble ctx n).Yields m) as bs)
      (h : g.EntriesMade ctx [] ps qs) :
    Made g ctx (.predicate e t as nt ps) (.predicate ctx.expiry t bs nt qs)
  | own {n m : Node} (rule : Rule) (hrule : g.IsOwnRule rule) (h : rule ctx n = .ok (some m)) :
    Made g ctx n m
  | identity {n : Node} {ps us : List (Node × Node)} (id : Identity)
      (hps : ∃ e t as nt, n = .predicate e t as nt ps) (h : g.EntriesMade ctx [] ps us) :
    Made g ctx n (.identity ctx.expiry id us)
  | claim {n x : Node} {ps us : List (Node × Node)} (a : Assurance) (s : Signature)
      (reserved : List String) (hps : ∃ e t as nt, n = .predicate e t as nt ps ∧
        (reserved = claimNames ∨ t = "verify")) (hx : x.Within n)
      (hs : s.statement = x.disassemble)
      (hcheck : a = .verified → ∃ k, g.ChecksWith k ∧ s.verifies k = true)
      (h : g.EntriesMade ctx reserved ps us) :
    Made g ctx n (.claim ctx.expiry a s.signer s.statement s.signature us)
  | verify {n x : Node} {ps us : List (Node × Node)}
      (hps : ∃ e t as nt, n = .predicate e t as nt ps) (hx : x.Within n)
      (h : g.EntriesMade ctx [] ps us) :
    Made g ctx n (.verify ctx.expiry x.disassemble us)
  | reachable {n : Node} {ps us : List (Node × Node)} {mode : ProbeMode}
      {found : List Node × List Node}
      {candidates : List Node} (hg : g.Probes) (hps : ∃ e t as nt, n = .predicate e t as nt ps)
      (hcandidates : ∀ c ∈ candidates, c.Within n) (hfound : Sorted ctx candidates found)
      (h : g.EntriesMade ctx reachableNames ps us) :
    Made g ctx n (.reachable ctx.expiry mode "" found.1 "" (outstanding found.1 found.2) us)

theorem forall₂_of_assembleAll {g : Grammar} {ctx : Context} {ns ms : List Node}
    (h : (g.assembleAll ctx ns).Yields ms) :
    List.Forall₂ (fun n m => (g.assemble ctx n).Yields m) ns ms := by
  induction ns generalizing ms with
  | nil =>
    obtain rfl := yields_pure.1 h
    exact .nil
  | cons n ns ih =>
    rw [assembleAll] at h
    obtain ⟨m, hm, h⟩ := h.bind
    obtain ⟨ms', hms, h⟩ := h.bind
    obtain rfl := yields_pure.1 h
    exact .cons hm (ih hms)

theorem forall₂_of_assembleEntries {g : Grammar} {ctx : Context} {reserved : List String}
    {ps qs : List (Node × Node)} (h : (g.assembleEntries ctx reserved ps).Yields qs) :
    List.Forall₂ (fun p q => (g.assemble ctx p.1).Yields q.1 ∧ (g.assemble ctx p.2).Yields q.2)
      (ps.filter fun p => !isReserved reserved p.1) qs := by
  induction ps generalizing qs with
  | nil =>
    obtain rfl := yields_pure.1 h
    exact .nil
  | cons p ps ih =>
    obtain ⟨k, v⟩ := p
    rw [assembleEntries] at h
    split at h
    · rename_i hk
      simpa [hk] using ih h
    · rename_i hk
      obtain ⟨k', hk', h⟩ := h.bind
      obtain ⟨v', hv', h⟩ := h.bind
      obtain ⟨qs', hqs, h⟩ := h.bind
      obtain rfl := yields_pure.1 h
      have hrest := ih hqs
      simpa [hk] using ⟨⟨hk', hv'⟩, hrest⟩

theorem entriesMade_of_yields {g : Grammar} {ctx : Context} {reserved : List String}
    {ps qs rs : List (Node × Node)} (hqs : (g.assembleEntries ctx reserved ps).Yields qs)
    (hrs : (ofExcept (Dict.checkKeys qs)).Yields rs) : g.EntriesMade ctx reserved ps rs := by
  obtain ⟨rfl, hdistinct⟩ := Dict.checkKeys_eq_ok_iff.1 (yields_ofExcept.1 hrs)
  exact ⟨forall₂_of_assembleEntries hqs, hdistinct⟩

theorem own_of_tryRules {ctx : Context} {n m : Node} {rules : List Rule}
    (h : tryRules ctx n rules = .ok m) : ∃ rule ∈ rules, rule ctx n = .ok (some m) := by
  induction rules with
  | nil => cases h
  | cons rule rules ih =>
    unfold tryRules at h
    split at h
    · cases h
    · rename_i m' hm
      cases h
      exact ⟨rule, List.mem_cons_self, hm⟩
    · obtain ⟨r, hr, hm⟩ := ih h
      exact ⟨r, List.mem_cons_of_mem _ hr, hm⟩

theorem made_of_fallback {g : Grammar} {ctx : Context} {n m : Node}
    (h : (g.fallback ctx n).Yields m) : Made g ctx n m := by
  obtain ⟨rule, hrule, hm⟩ := own_of_tryRules (yields_ofExcept.1 h)
  exact .own rule (.inl hrule) hm

theorem ruleFor?_eq_some {g : Grammar} {t : String} {rule : TagRule}
    (h : g.ruleFor? t = some rule) : rule ∈ g.tagRules ∧ rule.tag = t :=
  ⟨List.mem_of_find?_eq_some h, by simpa using List.find?_some h⟩

/-- What becomes of a predicate with the named arguments `ps` once its rule has prepared it. -/
def Finishes (g : Grammar) (ctx : Context) (ps : List (Node × Node)) : Prepared → Node → Prop
  | .declined, _ => False
  | .done n, m => n = m
  | .awaits reserved finish, m => ∃ us, g.EntriesMade ctx reserved ps us ∧ (finish us).Yields m

section

variable {g : Grammar} {ctx : Context} {e : Expiry} {t nt : String} {as : List Node}
  {ps : List (Node × Node)} {m : Node}

theorem made_of_finishIdentity {id : Identity} (h : g.Finishes ctx ps (finishIdentity ctx id) m) :
    Made g ctx (.predicate e t as nt ps) m := by
  obtain ⟨us, hus, h⟩ := h
  obtain rfl := yields_pure.1 h
  exact .identity id ⟨e, t, as, nt, rfl⟩ hus

theorem made_of_finishClaim {a : Assurance} {s : Signature} {x : Node} {reserved : List String}
    (h : g.Finishes ctx ps (finishClaim ctx a s reserved) m)
    (hreserved : reserved = claimNames ∨ t = "verify")
    (hx : x.Within (.predicate e t as nt ps)) (hs : s.statement = x.disassemble)
    (hcheck : a = .verified → ∃ k, g.ChecksWith k ∧ s.verifies k = true) :
    Made g ctx (.predicate e t as nt ps) m := by
  obtain ⟨us, hus, h⟩ := h
  obtain rfl := yields_pure.1 h
  exact .claim a s reserved ⟨e, t, as, nt, rfl, hreserved⟩ hx hs hcheck hus

theorem made_of_prepareVerify {keyring : Option Keyring} {prepared : Prepared}
    (hrule : .verify keyring ∈ g.tagRules)
    (hprepare : prepareVerify keyring ctx "verify" as = .ok prepared)
    (h : g.Finishes ctx ps prepared m) : Made g ctx (.predicate e "verify" as nt ps) m := by
  obtain ⟨k, hk, hwith⟩ := bind_eq_ok.1 hprepare
  obtain rfl := requireKeyring_eq_ok hk
  obtain ⟨c, hc, heq⟩ := bind_eq_ok.1 hwith
  obtain rfl := onlyArgument_eq_ok hc
  have hcw : c.Within (.predicate e "verify" [c] nt ps) := within_argument List.mem_cons_self
  split at heq
  · rename_i e' inner nt' fields
    obtain ⟨s, hs, heq⟩ := bind_eq_ok.1 heq
    obtain ⟨x, rfl, hx⟩ := readSignature_eq_ok hs
    split at heq
    · rename_i hverifies
      cases heq
      have hxw : x.Within (.predicate e' "signed" [x] nt' fields) :=
        within_argument List.mem_cons_self
      exact made_of_finishClaim h (.inr rfl)
        (hxw.of_mem (List.mem_append_left _ List.mem_cons_self)) hx
        fun _ => ⟨k, .inl hrule, hverifies⟩
    · cases heq
      obtain ⟨us, hus, h⟩ := h
      obtain rfl := yields_pure.1 h
      exact .verify ⟨e, _, _, nt, rfl⟩ hcw hus
  · cases heq

theorem made_of_prepareReachable {probe : Probe} {prepared : Prepared}
    (hrule : .reachable probe ∈ g.tagRules)
    (hprepare : prepareReachable probe ctx as ps = .ok prepared)
    (h : g.Finishes ctx ps prepared m) : Made g ctx (.predicate e t as nt ps) m := by
  obtain ⟨mode, _, hprepare⟩ := bind_eq_ok.1 hprepare
  obtain ⟨retried, hretried, heq⟩ := bind_eq_ok.1 hprepare
  cases heq
  obtain ⟨us, hus, h⟩ := h
  obtain ⟨found, hfound, h⟩ := h.bind
  obtain rfl := yields_pure.1 h
  have hcandidates : ∀ c ∈ as ++ retried, c.Within (.predicate e t as nt ps) :=
    List.forall_mem_append.2 ⟨fun c hc => within_argument hc, within_readRetried hretried⟩
  exact .reachable ⟨probe, hrule⟩ ⟨e, t, as, nt, rfl⟩ hcandidates
    (sorted_probeAll (fun c hc => hc) ⟨by simp, by simp, rfl, rfl⟩ hfound) hus

/-- What a rule of the grammar prepares and finishes is made in one of the ways of `Made`. -/
theorem made_of_prepare {rule : TagRule} {prepared : Prepared} (hrule : rule ∈ g.tagRules)
    (hprepare : rule.prepare ctx e as nt ps = .ok prepared) (h : g.Finishes ctx ps prepared m) :
    Made g ctx (.predicate e rule.tag as nt ps) m := by
  unfold TagRule.prepare at hprepare
  cases rule with
  | record =>
    obtain ⟨key, _, heq⟩ := bind_eq_ok.1 hprepare
    cases heq
    exact made_of_finishIdentity h
  | peer =>
    obtain ⟨text, _, hprepare⟩ := bind_eq_ok.1 hprepare
    obtain ⟨id, _, heq⟩ := bind_eq_ok.1 hprepare
    cases heq
    exact made_of_finishIdentity h
  | cid =>
    obtain ⟨value, _, heq⟩ := bind_eq_ok.1 hprepare
    split at heq
    · cases heq
      exact made_of_finishIdentity h
    · cases heq
  | multiaddress =>
    obtain ⟨text, _, hprepare⟩ := bind_eq_ok.1 hprepare
    obtain ⟨addr, _, heq⟩ := bind_eq_ok.1 hprepare
    cases heq
    exact made_of_finishIdentity h
  | signed =>
    obtain ⟨s, hs, heq⟩ := bind_eq_ok.1 hprepare
    obtain ⟨x, rfl, hx⟩ := readSignature_eq_ok hs
    cases heq
    exact made_of_finishClaim h (.inl rfl) (within_argument List.mem_cons_self) hx
      (fun hc => by cases hc)
  | sign keyring =>
    obtain ⟨k, _, hprepare⟩ := bind_eq_ok.1 hprepare
    obtain ⟨x, hx, heq⟩ := bind_eq_ok.1 hprepare
    obtain rfl := onlyArgument_eq_ok hx
    cases heq
    exact made_of_finishClaim h (.inl rfl) (within_argument List.mem_cons_self) rfl
      (fun hc => by cases hc)
  | verify keyring => exact made_of_prepareVerify hrule hprepare h
  | verified keyring =>
    obtain ⟨k, hk, hread⟩ := bind_eq_ok.1 hprepare
    obtain rfl := requireKeyring_eq_ok hk
    obtain ⟨s, hs, heq⟩ := bind_eq_ok.1 hread
    obtain ⟨x, rfl, hx⟩ := readSignature_eq_ok hs
    split at heq
    · rename_i hverifies
      cases heq
      exact made_of_finishClaim h (.inl rfl) (within_argument List.mem_cons_self) hx
        fun _ => ⟨k, .inr hrule, hverifies⟩
    · cases heq
  | reachable probe => exact made_of_prepareReachable hrule hprepare h
  | custom tag rule =>
    obtain ⟨r, hr, heq⟩ := bind_eq_ok.1 hprepare
    split at heq
    · cases heq
      obtain rfl : _ = m := h
      exact .own rule (.inr ⟨tag, hrule⟩) hr
    · cases heq
      exact h.elim

/-- Without a rule for its tag, or with one that declines, a predicate keeps its form. -/
theorem made_of_declined
    (h : ((do
      let bs ← assembleAll g ctx as
      let qs ← assembleEntries g ctx [] ps
      let qs ← .ofExcept (Dict.checkKeys qs)
      pure (.predicate ctx.expiry t bs nt qs) : Assembly Node)).Yields m) :
    Made g ctx (.predicate e t as nt ps) m := by
  obtain ⟨bs, hbs, h⟩ := h.bind
  obtain ⟨qs, hqs, h⟩ := h.bind
  obtain ⟨rs, hrs, h⟩ := h.bind
  obtain rfl := yields_pure.1 h
  exact .predicate e t nt (forall₂_of_assembleAll hbs) (entriesMade_of_yields hqs hrs)

end

/-- Whatever a grammar makes of a node, it makes in one of the ways of `Made`. -/
theorem made_of_yields {g : Grammar} {ctx : Context} {n m : Node}
    (h : (g.assemble ctx n).Yields m) : Made g ctx n m := by
  cases n with
  | leaf e v =>
    rw [assemble] at h
    split at h
    · obtain rfl := yields_pure.1 h
      exact .leaf e v
    · exact made_of_fallback h
  | dict e t ps =>
    rw [assemble] at h
    split at h
    · obtain ⟨qs, hqs, h⟩ := h.bind
      obtain ⟨rs, hrs, h⟩ := h.bind
      obtain rfl := yields_pure.1 h
      exact .dict e t (entriesMade_of_yields hqs hrs)
    · exact made_of_fallback h
  | set e t es =>
    rw [assemble] at h
    split at h
    · obtain ⟨fs, hfs, h⟩ := h.bind
      obtain rfl := yields_pure.1 h
      exact .set e t (forall₂_of_assembleAll hfs)
    · exact made_of_fallback h
  | predicate e t as nt ps =>
    rw [assemble] at h
    split at h
    · split at h
      · rename_i rule hrule
        obtain ⟨hmem, rfl⟩ := ruleFor?_eq_some hrule
        obtain ⟨prepared, hprepared, h⟩ := h.bind
        have hprepare := yields_ofExcept.1 hprepared
        cases prepared with
        | declined => exact made_of_declined h
        | done n => exact made_of_prepare hmem hprepare (yields_pure.1 h)
        | awaits reserved finish =>
          obtain ⟨us, hus, h⟩ := h.bind
          obtain ⟨vs, hvs, h⟩ := h.bind
          exact made_of_prepare hmem hprepare ⟨vs, entriesMade_of_yields hus hvs, h⟩
      · obtain ⟨prepared, hprepared, h⟩ := h.bind
        obtain rfl := yields_pure.1 hprepared
        exact made_of_declined h
    · exact made_of_fallback h
  | identity e i us => exact made_of_fallback h
  | claim e a b s g us => exact made_of_fallback h
  | verify e s us => exact made_of_fallback h
  | reachable e m vt vs ut uvs us => exact made_of_fallback h

/-! ## Properties of whole documents -/

theorem EntriesMade.mem {g : Grammar} {ctx : Context} {reserved : List String}
    {ps qs : List (Node × Node)} (h : g.EntriesMade ctx reserved ps qs) {q : Node × Node}
    (hq : q ∈ qs) : ∃ p ∈ ps, isReserved reserved p.1 = false ∧
      (g.assemble ctx p.1).Yields q.1 ∧ (g.assemble ctx p.2).Yields q.2 := by
  obtain ⟨p, hp, hpq⟩ := exists_of_forall₂_right h.1 hq
  rw [List.mem_filter, Bool.not_eq_true'] at hp
  exact ⟨p, hp.1, hp.2, hpq⟩

theorem EntriesMade.mem_entryNodes {g : Grammar} {ctx : Context} {reserved : List String}
    {ps qs : List (Node × Node)} (h : g.EntriesMade ctx reserved ps qs) {c : Node}
    (hc : c ∈ entryNodes qs) : ∃ x ∈ entryNodes ps, (g.assemble ctx x).Yields c := by
  obtain ⟨q, hq, hcq⟩ := Node.mem_entryNodes.1 hc
  obtain ⟨p, hp, _, hk, hv⟩ := h.mem hq
  obtain rfl | rfl := hcq
  · exact ⟨p.1, fst_mem_entryNodes hp, hk⟩
  · exact ⟨p.2, snd_mem_entryNodes hp, hv⟩

theorem EntriesMade.forall_entryNodes {g : Grammar} {ctx : Context} {reserved : List String}
    {ps qs : List (Node × Node)} {P : Node → Prop} (h : g.EntriesMade ctx reserved ps qs)
    (hP : ∀ x ∈ entryNodes ps, ∀ c, (g.assemble ctx x).Yields c → P c) :
    ∀ c ∈ entryNodes qs, P c := by
  intro c hc
  obtain ⟨x, hx, hxc⟩ := h.mem_entryNodes hc
  exact hP x hx c hxc

/-- Where the children of a made node come from: they are made of children, quoted from what was
given, candidates of a reachability check, or addresses found by it. -/
theorem Made.child {g : Grammar} {ctx : Context} {n m c : Node} (h : Made g ctx n m)
    (hc : c ∈ m.children) :
    (∃ x ∈ n.children, (g.assemble ctx x).Yields c) ∨
      (∃ x : Node, x.Within n ∧ c = x.disassemble) ∨
      (g.Probes ∧ ∃ x : Node, x.Within n ∧ c = x.withExpiry ctx.expiry) ∨
      (∃ s, c = .leaf ctx.expiry (.string s)) ∨
      ∃ rule, g.IsOwnRule rule ∧ rule ctx n = .ok (some m) := by
  have hargs : ∀ {xs ys : List Node}, List.Forall₂ (fun n m => (g.assemble ctx n).Yields m) xs ys →
      c ∈ ys → ∃ x ∈ xs, (g.assemble ctx x).Yields c :=
    fun h hc => exists_of_forall₂_right h hc
  have hnamed : ∀ {reserved : List String} {ps us : List (Node × Node)},
      g.EntriesMade ctx reserved ps us → (∃ e t as nt, n = .predicate e t as nt ps) →
      c ∈ entryNodes us → ∃ x ∈ n.children, (g.assemble ctx x).Yields c := by
    rintro reserved ps us hus ⟨e, t, as, nt, rfl⟩ hc
    obtain ⟨x, hx, hxc⟩ := hus.mem_entryNodes hc
    exact ⟨x, List.mem_append_right _ hx, hxc⟩
  cases h with
  | leaf e v => exact absurd hc List.not_mem_nil
  | dict e t h => exact .inl (h.mem_entryNodes hc)
  | set e t h => exact .inl (hargs h ((NodeSet.mem_addAll hc).resolve_left List.not_mem_nil))
  | predicate e t nt has h =>
    rcases List.mem_append.1 hc with hc | hc
    · obtain ⟨x, hx, hxc⟩ := hargs has hc
      exact .inl ⟨x, List.mem_append_left _ hx, hxc⟩
    · obtain ⟨x, hx, hxc⟩ := h.mem_entryNodes hc
      exact .inl ⟨x, List.mem_append_right _ hx, hxc⟩
  | own rule hrule h => exact .inr (.inr (.inr (.inr ⟨rule, hrule, h⟩)))
  | identity id hps h => exact .inl (hnamed h hps hc)
  | claim a s reserved hps hx hs hcheck h =>
    obtain ⟨e, t, as, nt, hn, _⟩ := hps
    rcases List.mem_cons.1 hc with rfl | hc
    · exact .inr (.inl ⟨_, hx, hs⟩)
    · exact .inl (hnamed h ⟨e, t, as, nt, hn⟩ hc)
  | verify hps hx h =>
    rcases List.mem_cons.1 hc with rfl | hc
    · exact .inr (.inl ⟨_, hx, rfl⟩)
    · exact .inl (hnamed h hps hc)
  | reachable hg hps hcandidates hfound h =>
    rcases List.mem_append.1 hc with hc | hc
    · rcases List.mem_append.1 hc with hc | hc
      · exact .inr (.inr (.inr (.inl (hfound.verified c hc))))
      · obtain ⟨x, hx, hxc⟩ := hfound.unverified c (List.mem_filter.1 hc).1
        exact .inr (.inr (.inl ⟨hg, x, hcandidates x hx, hxc⟩))
    · exact .inl (hnamed h hps hc)

/-- A property of single nodes that all that is made has, and all that is taken over from the
input, holds throughout an assembled document; `D` is what is known of the input. -/
theorem everywhere_of_yields {g : Grammar} {ctx : Context} {D P : Node → Prop}
    (hmade : ∀ n m, n.Everywhere D → Made g ctx n m → P m)
    (hquoted : ∀ x : Node, x.Everywhere D → x.disassemble.Everywhere P)
    (hcandidate : ∀ x : Node, g.Probes → x.Everywhere D → (x.withExpiry ctx.expiry).Everywhere P)
    (htext : ∀ s, P (.leaf ctx.expiry (.string s)))
    (hown : g.Upholds fun ctx' n m => ctx' = ctx → n.Everywhere D → m.Everywhere P)
    {n m : Node} (hn : n.Everywhere D) (h : (g.assemble ctx n).Yields m) : m.Everywhere P := by
  have hwithin : ∀ {x n : Node}, n.Everywhere D → x.Within n → x.Everywhere D :=
    fun hn hx v hv => hn v (hx.trans hv)
  induction n using induct_children generalizing m with
  | step n ih =>
    have hm := made_of_yields h
    rw [everywhere_iff]
    refine ⟨hmade n m hn hm, fun c hc => ?_⟩
    obtain ⟨x, hx, hxc⟩ | ⟨x, hx, rfl⟩ | ⟨hg, x, hx, rfl⟩ | ⟨s, rfl⟩ | ⟨rule, hrule, hr⟩ :=
      hm.child hc
    · exact ih x hx (hn.child hx) hxc
    · exact hquoted x (hwithin hn hx)
    · exact hcandidate x hg (hwithin hn hx)
    · exact everywhere_iff.2 ⟨htext s, by simp [children]⟩
    · exact (hown rule hrule ctx n m hr rfl hn).child hc

/-- Without rules of its own a grammar makes texts of texts only. -/
theorem string?_of_yields {g : Grammar} {ctx : Context} (hg : g.IsStock)
    {n m : Node} (h : (g.assemble ctx n).Yields m) {s : String} (hs : m.string? = some s) :
    n.string? = some s := by
  obtain ⟨e', rfl⟩ := string?_eq_some.1 hs
  cases made_of_yields h with
  | leaf e v => rfl
  | own rule hrule _ => exact absurd hrule (hg rule)

end Grammar

end PeerRecords
