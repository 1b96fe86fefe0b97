import PeerRecords.Proofs.Assembly
import PeerRecords.Proofs.Multiaddr

/-
  What the library's rules do.
  A rule reads the arguments of a predicate and comes to a plan: which smart node it will be once
  the user's fields are assembled. `TagRule.Plans` lists what each rule reads and which plan it
  comes to, and `prepare_eq_ok_iff` says that this is all: a rule succeeds just if it has a plan,
  and then follows it. The plan does not go by the context; the context only stamps what comes out.
  `Assembled` lists what a whole grammar without rules of its own makes, with these plans.
-/

namespace PeerRecords

open Node Assembly

/-! ## Reading arguments -/

/-- The arguments and the fields `by` and `signature` of a predicate hold the signature. -/
structure ReadsSignature (args : List Node) (named : List (Node × Node)) (s : Signature) :
    Prop where
  statement : ∃ x, args = [x] ∧ s.statement = x.disassemble
  signer : (namedArgument? "by" named).bind Node.string? = some s.signer.name
  valid : s.signer.Valid
  signature : ∃ e, namedArgument? "signature" named = some (.leaf e (.blob s.signature))

theorem readPeerId_eq_ok_iff {text : String} {p : PeerId} :
    readPeerId text = .ok p ↔ p.name = text ∧ p.Valid := by
  unfold readPeerId
  rw [← PeerId.parse?_eq_some_iff]
  cases PeerId.parse? text <;> simp

theorem readAddress_eq_ok_iff {text : String} {addr : Multiaddr} :
    readAddress text = .ok addr ↔ Multiaddr.parse text = .ok addr := by
  unfold readAddress
  cases Multiaddr.parse text <;> simp

theorem onlyText_eq_ok_iff {tag : String} {args : List Node} {text : String} :
    onlyText tag args = .ok text ↔ ∃ x, args = [x] ∧ x.string? = some text := by
  unfold onlyText
  constructor
  · intro h
    obtain ⟨x, hx, h⟩ := bind_eq_ok.1 h
    refine ⟨x, onlyArgument_eq_ok hx, ?_⟩
    split at h
    · rename_i s hs
      cases h
      exact hs
    · cases h
  · rintro ⟨x, rfl, hx⟩
    rw [onlyArgument, ok_bind, hx]

theorem readSignature_eq_ok_iff {tag : String} {args : List Node} {named : List (Node × Node)}
    {s : Signature} : readSignature tag args named = .ok s ↔ ReadsSignature args named s := by
  unfold readSignature
  constructor
  · intro h
    obtain ⟨x, hx, hread⟩ := bind_eq_ok.1 h
    obtain rfl := onlyArgument_eq_ok hx
    cases hby : (namedArgument? "by" named).bind Node.string? with
    | none =>
      simp only [hby] at hread
      cases hread
    | some text =>
      simp only [hby] at hread
      obtain ⟨signer, hsigner, heq⟩ := bind_eq_ok.1 hread
      obtain ⟨hname, hvalid⟩ := readPeerId_eq_ok_iff.1 hsigner
      split at heq
      · rename_i e bytes hsignature
        cases heq
        exact ⟨⟨x, rfl, rfl⟩, hname ▸ hby, hvalid, ⟨e, hsignature⟩⟩
      · cases heq
  · rintro ⟨⟨x, rfl, hx⟩, hsigner, hvalid, ⟨e, hsignature⟩⟩
    have hread : readPeerId s.signer.name = .ok s.signer := readPeerId_eq_ok_iff.2 ⟨rfl, hvalid⟩
    simp only [onlyArgument, hsigner, hread, hsignature]
    show Except.ok (Signature.mk s.signer x.disassemble s.signature) = _
    rw [← hx]

/-! ## Plans -/

/-- What a rule comes to before the user's fields are there. -/
inductive Plan where
  | identity (id : Identity)
  | claim (reserved : List String) (assurance : Assurance) (s : Signature)
  | verify (statement : Node)
  | reachable (probe : Probe) (mode : ProbeMode) (candidates : List Node)

namespace Plan

/-- The names that are not the user's. -/
def reserved : Plan → List String
  | identity _ => []
  | claim reserved _ _ => reserved
  | verify _ => []
  | reachable _ _ _ => reachableNames

/-- The node of the plan with the user's fields. -/
def finish (ctx : Context) : Plan → List (Node × Node) → Assembly Node
  | identity id, us => pure (.identity ctx.expiry id us)
  | claim _ a s, us => pure (.claim ctx.expiry a s.signer s.statement s.signature us)
  | verify statement, us => pure (.verify ctx.expiry statement us)
  | reachable probe mode candidates, us => do
    let found ← probeAll probe ctx mode candidates ([], [])
    pure (.reachable ctx.expiry mode "" found.1 "" (outstanding found.1 found.2) us)

end Plan

/-- What each rule of the library reads, and the plan it comes to. -/
inductive TagRule.Plans : TagRule → List Node → List (Node × Node) → Plan → Prop where
  | record {x : Node} {key : String} {ps : List (Node × Node)} (hx : x.string? = some key) :
    Plans .record [x] ps (.identity (.record key))
  | peer {x : Node} {id : PeerId} {ps : List (Node × Node)} (hx : x.string? = some id.name)
      (hid : id.Valid) : Plans .peer [x] ps (.identity (.peer id))
  | cid {x : Node} {value : String} {ps : List (Node × Node)} (hx : x.string? = some value)
      (hvalue : isPlainName value = true) : Plans .cid [x] ps (.identity (.cid value))
  | multiaddress {x : Node} {addr : Multiaddr} {ps : List (Node × Node)}
      (hx : x.string? = some addr.text) (haddr : Multiaddr.parse addr.text = .ok addr) :
    Plans .multiaddress [x] ps (.identity (.multiaddress addr))
  | signed {as : List Node} {ps : List (Node × Node)} {s : Signature}
      (hs : ReadsSignature as ps s) : Plans .signed as ps (.claim claimNames .signed s)
  | sign (k : Keyring) (x : Node) (ps : List (Node × Node)) :
    Plans (.sign (some k)) [x] ps (.claim claimNames .signed (.create k x.disassemble))
  | accepted {k : Keyring} {e : Expiry} {nt : String} {as : List Node}
      {fields ps : List (Node × Node)} {s : Signature} (hs : ReadsSignature as fields s)
      (hk : s.verifies k = true) :
    Plans (.verify (some k)) [.predicate e "signed" as nt fields] ps (.claim [] .verified s)
  | refused {k : Keyring} {e : Expiry} {nt : String} {as : List Node}
      {fields ps : List (Node × Node)} {s : Signature} (hs : ReadsSignature as fields s)
      (hk : s.verifies k = false) :
    Plans (.verify (some k)) [.predicate e "signed" as nt fields] ps
      (.verify (disassemble (.predicate e "signed" as nt fields)))
  | verified {k : Keyring} {as : List Node} {ps : List (Node × Node)} {s : Signature}
      (hs : ReadsSignature as ps s) (hk : s.verifies k = true) :
    Plans (.verified (some k)) as ps (.claim claimNames .verified s)
  | reachable {probe : Probe} {as cs : List Node} {ps : List (Node × Node)} {mode : ProbeMode}
      (hmode : readMode ps = .ok mode) (hcs : readRetried ps = .ok cs) :
    Plans (.reachable probe) as ps (.reachable probe mode (as ++ cs))

section

variable {ctx : Context} {e : Expiry} {as : List Node} {nt : String} {ps : List (Node × Node)}

theorem plans_of_prepare {rule : TagRule} (hrule : ∀ tag own, rule ≠ .custom tag own)
    {prepared : Prepared} (h : rule.prepare ctx e as nt ps = .ok prepared) :
    ∃ p, rule.Plans as ps p ∧ prepared = .awaits p.reserved (p.finish ctx) := by
  unfold TagRule.prepare at h
  cases rule with
  | record =>
    obtain ⟨key, hkey, heq⟩ := bind_eq_ok.1 h
    obtain ⟨x, rfl, hx⟩ := onlyText_eq_ok_iff.1 hkey
    cases heq
    exact ⟨_, .record hx, rfl⟩
  | peer =>
    obtain ⟨text, htext, hread⟩ := bind_eq_ok.1 h
    obtain ⟨id, hid, heq⟩ := bind_eq_ok.1 hread
    obtain ⟨x, rfl, hx⟩ := onlyText_eq_ok_iff.1 htext
    obtain ⟨rfl, hvalid⟩ := readPeerId_eq_ok_iff.1 hid
    cases heq
    exact ⟨_, .peer hx hvalid, rfl⟩
  | cid =>
    obtain ⟨value, hvalue, heq⟩ := bind_eq_ok.1 h
    obtain ⟨x, rfl, hx⟩ := onlyText_eq_ok_iff.1 hvalue
    split at heq
    · rename_i hplain
      cases heq
      exact ⟨_, .cid hx hplain, rfl⟩
    · cases heq
  | multiaddress =>
    obtain ⟨text, htext, hread⟩ := bind_eq_ok.1 h
    obtain ⟨addr, haddr, heq⟩ := bind_eq_ok.1 hread
    obtain ⟨x, rfl, hx⟩ := onlyText_eq_ok_iff.1 htext
    have hparse := readAddress_eq_ok_iff.1 haddr
    obtain rfl := Multiaddr.text_of_parse hparse
    cases heq
    exact ⟨_, .multiaddress hx hparse, rfl⟩
  | signed =>
    obtain ⟨s, hs, heq⟩ := bind_eq_ok.1 h
    cases heq
    exact ⟨_, .signed (readSignature_eq_ok_iff.1 hs), rfl⟩
  | sign keyring =>
    obtain ⟨k, hk, hwith⟩ := bind_eq_ok.1 h
    obtain ⟨x, hx, heq⟩ := bind_eq_ok.1 hwith
    obtain rfl := requireKeyring_eq_ok hk
    obtain rfl := onlyArgument_eq_ok hx
    cases heq
    exact ⟨_, .sign k x ps, rfl⟩
  | verify keyring =>
    obtain ⟨k, hk, hwith⟩ := bind_eq_ok.1 h
    obtain ⟨c, hc, hread⟩ := bind_eq_ok.1 hwith
    obtain rfl := requireKeyring_eq_ok hk
    obtain rfl := onlyArgument_eq_ok hc
    split at hread
    · obtain ⟨s, hs, heq⟩ := bind_eq_ok.1 hread
      have hs := readSignature_eq_ok_iff.1 hs
      split at heq
      · rename_i hverifies
        cases heq
        exact ⟨_, .accepted hs hverifies, rfl⟩
      · rename_i hverifies
        cases heq
        exact ⟨_, .refused hs (Bool.eq_false_of_not_eq_true hverifies), rfl⟩
    · cases hread
  | verified keyring =>
    obtain ⟨k, hk, hread⟩ := bind_eq_ok.1 h
    obtain ⟨s, hs, heq⟩ := bind_eq_ok.1 hread
    obtain rfl := requireKeyring_eq_ok hk
    split at heq
    · rename_i hverifies
      cases heq
      exact ⟨_, .verified (readSignature_eq_ok_iff.1 hs) hverifies, rfl⟩
    · cases heq
  | reachable probe =>
    obtain ⟨mode, hmode, hread⟩ := bind_eq_ok.1 h
    obtain ⟨cs, hcs, heq⟩ := bind_eq_ok.1 hread
    cases heq
    exact ⟨_, .reachable hmode hcs, rfl⟩
  | custom tag own => exact absurd rfl (hrule tag own)

theorem prepare_of_plans {rule : TagRule} {p : Plan} (h : rule.Plans as ps p) :
    rule.prepare ctx e as nt ps = .ok (.awaits p.reserved (p.finish ctx)) := by
  have htext : ∀ {tag : String} {x : Node} {text : String}, x.string? = some text →
      onlyText tag [x] = .ok text := fun hx => onlyText_eq_ok_iff.2 ⟨_, rfl, hx⟩
  cases h with
  | record hx => simp only [TagRule.prepare, htext hx]; rfl
  | peer hx hid =>
    simp only [TagRule.prepare, htext hx]
    show (do let id ← readPeerId _; _) = _
    rw [readPeerId_eq_ok_iff.2 ⟨rfl, hid⟩]
    rfl
  | cid hx hvalue =>
    simp only [TagRule.prepare, htext hx]
    exact if_pos hvalue
  | multiaddress hx haddr =>
    simp only [TagRule.prepare, htext hx]
    show (do let addr ← readAddress _; _) = _
    rw [readAddress_eq_ok_iff.2 haddr]
    rfl
  | signed hs => simp only [TagRule.prepare, readSignature_eq_ok_iff.2 hs]; rfl
  | sign k x => rfl
  | accepted hs hk =>
    simp only [TagRule.prepare, prepareVerify, requireKeyring, onlyArgument]
    show (do let s ← readSignature _ _ _; _) = _
    rw [readSignature_eq_ok_iff.2 hs]
    exact if_pos hk
  | refused hs hk =>
    simp only [TagRule.prepare, prepareVerify, requireKeyring, onlyArgument]
    show (do let s ← readSignature _ _ _; _) = _
    rw [readSignature_eq_ok_iff.2 hs]
    exact if_neg (by simp [hk])
  | verified hs hk =>
    simp only [TagRule.prepare, requireKeyring]
    show (do let s ← readSignature _ _ _; _) = _
    rw [readSignature_eq_ok_iff.2 hs]
    exact if_pos hk
  | reachable hmode hcs =>
    simp only [TagRule.prepare, prepareReachable, hmode, hcs]
    rfl

/-- A rule of the library succeeds just if it has a plan, and then follows it. -/
theorem prepare_eq_ok_iff {rule : TagRule} (hrule : ∀ tag own, rule ≠ .custom tag own)
    {prepared : Prepared} : rule.prepare ctx e as nt ps = .ok prepared ↔
      ∃ p, rule.Plans as ps p ∧ prepared = .awaits p.reserved (p.finish ctx) := by
  refine ⟨plans_of_prepare hrule, ?_⟩
  rintro ⟨p, hp, rfl⟩
  exact prepare_of_plans hp

end

/-! ## Predicates -/

namespace Grammar

variable {g : Grammar} {e : Expiry} {t nt : String} {as : List Node} {ps : List (Node × Node)}

theorem IsStock.rules_eq_nil (hg : g.IsStock) : g.rules = [] :=
  List.eq_nil_iff_forall_not_mem.2 fun rule hrule => hg rule (.inl hrule)

theorem IsStock.not_custom (hg : g.IsStock) {rule : TagRule} (h : g.ruleFor? t = some rule) :
    ∀ tag own, rule ≠ .custom tag own := by
  rintro tag own rfl
  exact hg own (.inr ⟨tag, (ruleFor?_eq_some h).1⟩)

theorem IsStock.not_yields_fallback (hg : g.IsStock) {ctx : Context} {n m : Node} :
    ¬ (g.fallback ctx n).Yields m := by
  intro h
  rw [fallback, hg.rules_eq_nil] at h
  cases yields_ofExcept.1 h

/-- Without rules of its own only a generic grammar assembles anything, and no smart node. -/
theorem IsStock.of_yields (hg : g.IsStock) {ctx : Context} {n m : Node}
    (h : (g.assemble ctx n).Yields m) : g.generic = true ∧ n.isSmart = false := by
  have hgeneric : ∀ {a : Assembly Node}, (if g.generic then a else g.fallback ctx n).Yields m →
      g.generic = true := by
    intro a ha
    by_contra hnot
    rw [if_neg hnot] at ha
    exact hg.not_yields_fallback ha
  cases n with
  | leaf e v => exact ⟨hgeneric h, rfl⟩
  | dict e t ps => exact ⟨hgeneric h, rfl⟩
  | set e t es => exact ⟨hgeneric h, rfl⟩
  | predicate e t as nt ps => exact ⟨hgeneric h, rfl⟩
  | identity e i us => exact (hg.not_yields_fallback h).elim
  | claim e a b s sig us => exact (hg.not_yields_fallback h).elim
  | verify e s us => exact (hg.not_yields_fallback h).elim
  | reachable e m vt vs ut uvs us => exact (hg.not_yields_fallback h).elim

/-- A predicate whose rule has a plan is assembled by the plan. -/
theorem assemble_of_plans (hgeneric : g.generic = true) {rule : TagRule}
    (hrule : g.ruleFor? t = some rule) {p : Plan} (hp : rule.Plans as ps p) (ctx : Context) :
    g.assemble ctx (.predicate e t as nt ps) = (do
      let us ← assembleEntries g ctx p.reserved ps
      let us ← .ofExcept (Dict.checkKeys us)
      p.finish ctx us) := by
  rw [assemble, if_pos hgeneric]
  simp only [hrule, prepare_of_plans hp]
  rfl

/-- A predicate without a rule keeps its form. -/
theorem assemble_of_no_rule (hgeneric : g.generic = true) (hrule : g.ruleFor? t = none)
    (ctx : Context) : g.assemble ctx (.predicate e t as nt ps) = (do
      let bs ← assembleAll g ctx as
      let qs ← assembleEntries g ctx [] ps
      let qs ← .ofExcept (Dict.checkKeys qs)
      pure (.predicate ctx.expiry t bs nt qs)) := by
  rw [assemble, if_pos hgeneric]
  simp only [hrule]
  rfl

/-- A predicate that a stock grammar assembles has no rule, or a rule with a plan. -/
theorem IsStock.plans_of_yields (hg : g.IsStock) {ctx : Context} {m : Node}
    (h : (g.assemble ctx (.predicate e t as nt ps)).Yields m) :
    g.ruleFor? t = none ∨ ∃ rule p, g.ruleFor? t = some rule ∧ rule.Plans as ps p := by
  cases hrule : g.ruleFor? t with
  | none => exact .inl rfl
  | some rule =>
    have hgeneric := (hg.of_yields h).1
    rw [assemble, if_pos hgeneric] at h
    simp only [hrule] at h
    obtain ⟨prepared, hprepared, _⟩ := h.bind
    obtain ⟨p, hp, _⟩ := plans_of_prepare (hg.not_custom hrule) (yields_ofExcept.1 hprepared)
    exact .inr ⟨rule, p, rfl, hp⟩

/-- The ways in which a grammar without rules of its own makes a document of a node: those of
`Made`, with the plan that a predicate with a rule follows. -/
inductive Assembled (g : Grammar) (ctx : Context) : Node → Node → Prop where
  | leaf (e : Expiry) (v : Leaf) : Assembled g ctx (.leaf e v) (.leaf ctx.expiry v)
  | dict (e : Expiry) (t : String) {ps qs : List (Node × Node)} (h : g.EntriesMade ctx [] ps qs) :
    Assembled g ctx (.dict e t ps) (.dict ctx.expiry t qs)
  | set (e : Expiry) (t : String) {es fs : List Node}
      (h : List.Forall₂ (fun n m => (g.assemble ctx n).Yields m) es fs) :
    Assembled g ctx (.set e t es) (.set ctx.expiry t (fs.foldl NodeSet.addTo []))
  | predicate (e : Expiry) {t : String} (nt : String) {as bs : List Node}
      {ps qs : List (Node × Node)} (hrule : g.ruleFor? t = none)
      (hargs : List.Forall₂ (fun n m => (g.assemble ctx n).Yields m) as bs)
      (h : g.EntriesMade ctx [] ps qs) :
    Assembled g ctx (.predicate e t as nt ps) (.predicate ctx.expiry t bs nt qs)
  | planned (e : Expiry) (nt : String) {rule : TagRule} {as : List Node}
      {ps us : List (Node × Node)} {p : Plan} {m : Node}
      (hrule : g.ruleFor? rule.tag = some rule) (hp : rule.Plans as ps p)
      (h : g.EntriesMade ctx p.reserved ps us) (hm : (p.finish ctx us).Yields m) :
    Assembled g ctx (.predicate e rule.tag as nt ps) m

theorem IsStock.assembled_of_yields (hg : g.IsStock) {ctx : Context} {n m : Node}
    (h : (g.assemble ctx n).Yields m) : Assembled g ctx n m := by
  obtain ⟨hgeneric, hsmart⟩ := hg.of_yields h
  cases n with
  | leaf e v =>
    rw [assemble, if_pos hgeneric] at h
    obtain rfl := yields_pure.1 h
    exact .leaf e v
  | dict e t ps =>
    rw [assemble, if_pos hgeneric] at h
    obtain ⟨qs, hqs, h⟩ := h.bind
    obtain ⟨rs, hrs, h⟩ := h.bind
    obtain rfl := yields_pure.1 h
    exact .dict e t (entriesMade_of_yields hqs hrs)
  | set e t es =>
    rw [assemble, if_pos hgeneric] at h
    obtain ⟨fs, hfs, h⟩ := h.bind
    obtain rfl := yields_pure.1 h
    exact .set e t (forall₂_of_assembleAll hfs)
  | predicate e t as nt ps =>
    obtain hrule | ⟨rule, p, hrule, hp⟩ := hg.plans_of_yields h
    · rw [assemble_of_no_rule hgeneric hrule] at h
      obtain ⟨bs, hbs, h⟩ := h.bind
      obtain ⟨qs, hqs, h⟩ := h.bind
      obtain ⟨rs, hrs, h⟩ := h.bind
      obtain rfl := yields_pure.1 h
      exact .predicate e nt hrule (forall₂_of_assembleAll hbs) (entriesMade_of_yields hqs hrs)
    · rw [assemble_of_plans hgeneric hrule hp] at h
      obtain ⟨qs, hqs, h⟩ := h.bind
      obtain ⟨us, hus, h⟩ := h.bind
      obtain ⟨_, rfl⟩ := ruleFor?_eq_some hrule
      exact .planned e nt hrule hp (entriesMade_of_yields hqs hus) h
  | identity e i us => cases hsmart
  | claim e a b s x us => cases hsmart
  | verify e s us => cases hsmart
  | reachable e m vt vs ut uvs us => cases hsmart

end Grammar

end PeerRecords
