import PeerRecords.Proofs.Assembly
import PeerRecords.Proofs.Sweep
import PeerRecords.Proofs.Update
import PeerRecords.Proofs.Store.Runs

/-
  Verified claims.
  A claim is recorded as verified only with a signature that the keyring has accepted
  (`recorded_of_yields`), and neither updates nor sweeps change that. What a reader sees is the
  plain predicate, in which the user's fields are laid over the recorded signer and signature; so a
  claim shows an accepted signature just if what its fields leave of the recorded one is accepted
  (`genuine_iff`). The rule for `verified(..)` keeps `by` and `signature` out of the user's fields,
  the rule for `verify(..)` does not. The main statement, at the end, is about every assembly and
  every run of a store.
-/

namespace PeerRecords

open Node Grammar

namespace Node

/-! ## What a claim shows -/

/-- The signer, statement and signature that are read off a plain predicate
`verified(s, by: p, signature: g, ..)`. -/
def shown? : Node → Option Signature
  | .predicate _ "verified" [s] _ named =>
    match namedArgument? "by" named, namedArgument? "signature" named with
    | some (.leaf _ (.string p)), some (.leaf _ (.blob g)) => some ⟨⟨p⟩, s, g⟩
    | _, _ => none
  | _ => none

/-- The keyring accepts the signature that the plain form of the node shows. -/
def Genuine (k : Keyring) (n : Node) : Prop :=
  ∃ s, n.disassemble.shown? = some s ∧ s.verifies k = true

/-- What the user's fields leave of a signature: the last one named `by` stands for the signer, the
last one named `signature` for the signature itself. -/
def overlaid (s : Signature) (us : List (Node × Node)) : Option Signature :=
  match (namedArgument? "by" us.reverse).getD (ofString s.signer.name),
    (namedArgument? "signature" us.reverse).getD (ofBlob s.signature) with
  | .leaf _ (.string p), .leaf _ (.blob g) => some ⟨⟨p⟩, s.statement, g⟩
  | _, _ => none

/-- A verified claim has a recorded signature that the keyring accepts. -/
def IsRecorded (k : Keyring) : Node → Prop
  | .claim _ .verified p s g _ => (Signature.mk p s g).verifies k = true
  | _ => True

/-- A verified claim shows a signature that the keyring accepts. -/
def IsGenuine (k : Keyring) : Node → Prop
  | .claim e .verified p s g us => (claim e .verified p s g us).Genuine k
  | _ => True

/-- The keyring accepts what the user's fields leave of the signature of a verified claim. -/
def IsAccepted (k : Keyring) : Node → Prop
  | .claim _ .verified p s g us =>
    ∃ s', overlaid ⟨p, s.disassemble, g⟩ us = some s' ∧ s'.verifies k = true
  | _ => True

/-- The user's fields of a verified claim name neither `by` nor `signature`. -/
def IsUntouched : Node → Prop
  | .claim _ .verified _ _ _ us => ∀ u ∈ us, isReserved claimNames u.1 = false
  | _ => True

/-- A predicate `verify(..)` names neither `by` nor `signature`. -/
def IsReserving : Node → Prop
  | .predicate _ "verify" _ _ ps => ∀ p ∈ ps, isReserved claimNames p.1 = false
  | _ => True

theorem namedArgument?_disassembleEntries (name : String) (us : List (Node × Node)) :
    namedArgument? name (disassembleEntries us) = (namedArgument? name us).map disassemble := by
  rw [disassembleEntries_eq_map]
  unfold namedArgument? Entries.lookup?
  induction us with
  | nil => rfl
  | cons u us ih =>
    rw [List.map_cons, List.find?_cons, List.find?_cons]
    have htext : Dict.isText name u.1.disassemble = Dict.isText name u.1 := by
      rw [Dict.isText, Dict.isText, string?_disassemble]
    rw [htext]
    cases Dict.isText name u.1 with
    | true => rfl
    | false => exact ih

theorem namedArgument?_claimFields (p : PeerId) (g : List UInt8) :
    namedArgument? "by" (claimFields p g) = some (ofString p.name) ∧
      namedArgument? "signature" (claimFields p g) = some (ofBlob g) := ⟨rfl, rfl⟩

/-- The field of a claim that a reader sees: the last of the user's with that name, or the claim's
own. -/
theorem namedArgument?_layOver (name : String) (own us : List (Node × Node)) :
    namedArgument? name (layOver own (disassembleEntries us)) =
      ((namedArgument? name us.reverse).map disassemble).or (namedArgument? name own) := by
  rw [namedArgument?, lookup?_layOver]
  have hreverse : (disassembleEntries us).reverse = disassembleEntries us.reverse := by
    rw [disassembleEntries_eq_map, disassembleEntries_eq_map, List.map_reverse]
  rw [hreverse]
  exact congrArg (fun o : Option Node => o.or (namedArgument? name own))
    (namedArgument?_disassembleEntries name us.reverse)

theorem shown?_claim (e : Expiry) (p : PeerId) (s : Node) (g : List UInt8)
    (us : List (Node × Node)) :
    (claim e .verified p s g us).disassemble.shown? = overlaid ⟨p, s.disassemble, g⟩ us := by
  have hby := namedArgument?_layOver "by" (claimFields p g) us
  have hsignature := namedArgument?_layOver "signature" (claimFields p g) us
  rw [(namedArgument?_claimFields p g).1] at hby
  rw [(namedArgument?_claimFields p g).2] at hsignature
  rw [disassemble, show Assurance.verified.kind.name = "verified" from rfl, shown?, hby,
    hsignature, overlaid]
  generalize namedArgument? "by" us.reverse = b
  generalize namedArgument? "signature" us.reverse = h
  cases b with
  | none =>
    cases h with
    | none => rfl
    | some h =>
      cases h with
      | leaf d v => cases v <;> rfl
      | _ => rfl
  | some b =>
    cases b with
    | leaf d v =>
      cases h with
      | none => cases v <;> rfl
      | some h =>
        cases h with
        | leaf d' w => cases v <;> cases w <;> rfl
        | _ => cases v <;> rfl
    | _ => rfl

theorem verifies_disassemble (k : Keyring) (p : PeerId) (s : Node) (g : List UInt8) :
    (Signature.mk p s.disassemble g).verifies k = (Signature.mk p s g).verifies k := by
  unfold Signature.verifies Signature.message canonical
  rw [disassemble_disassemble]

/-- A verified claim is genuine just if what its user's fields leave of its signature is
accepted. -/
theorem isGenuine_iff (k : Keyring) (n : Node) : n.IsGenuine k ↔ n.IsAccepted k := by
  unfold IsGenuine IsAccepted
  split
  · rw [Genuine, shown?_claim]
  · exact Iff.rfl

/-- Fields that leave a name alone have none of that name. -/
theorem namedArgument?_of_untouched {reserved : List String} {name : String}
    (hname : name ∈ reserved) {us : List (Node × Node)}
    (h : ∀ u ∈ us, isReserved reserved u.1 = false) : namedArgument? name us = none := by
  rw [namedArgument?, Entries.lookup?, Option.map_eq_none_iff, List.find?_eq_none]
  intro u hu htext
  have hs : u.1.string? = some name := by simpa [Dict.isText] using htext
  have hres := h u hu
  rw [isReserved, hs] at hres
  simp [hname] at hres

/-- A claim with a recorded signature whose user's fields leave it alone is genuine. -/
theorem IsGenuine.of_untouched {k : Keyring} {n : Node} (hn : n.IsRecorded k)
    (hu : n.IsUntouched) : n.IsGenuine k := by
  rw [isGenuine_iff]
  unfold IsAccepted
  split
  · rename_i e p s g us
    have hus : ∀ u ∈ us.reverse, isReserved claimNames u.1 = false :=
      fun u h => hu u (List.mem_reverse.1 h)
    have hby : namedArgument? "by" us.reverse = none :=
      namedArgument?_of_untouched (by decide) hus
    have hsignature : namedArgument? "signature" us.reverse = none :=
      namedArgument?_of_untouched (by decide) hus
    refine ⟨⟨p, s.disassemble, g⟩, ?_, ?_⟩
    · rw [overlaid, hby, hsignature]
      rfl
    · rw [verifies_disassemble]
      exact hn
  · trivial

/-! ## What updates and sweeps do to a claim -/

theorem IsRecorded.withExpiry {k : Keyring} (e : Expiry) (n : Node) (h : n.IsRecorded k) :
    (n.withExpiry e).IsRecorded k := by
  cases n with
  | claim e' a p s g us => cases a <;> exact h
  | _ => trivial

theorem IsUntouched.withExpiry (e : Expiry) (n : Node) (h : n.IsUntouched) :
    (n.withExpiry e).IsUntouched := by
  cases n with
  | claim e' a p s g us => cases a <;> exact h
  | _ => trivial

/-- An updated claim has the newer signature. -/
theorem Updated.isRecorded {k : Keyring} {a b r : Node} (h : Updated a b r)
    (hb : b.IsRecorded k) : r.IsRecorded k := by
  cases h with
  | claim e e' x p p' s s' g g' h => cases x <;> exact hb
  | _ => trivial

/-- An updated claim has the user's fields of both sides. -/
theorem Updated.isUntouched {a b r : Node} (h : Updated a b r) (ha : a.IsUntouched)
    (hb : b.IsUntouched) : r.IsUntouched := by
  cases h with
  | claim e e' x p p' s s' g g' h =>
    cases x with
    | signed => trivial
    | verified =>
      refine forall_fst_updateEntries (P := fun c => isReserved claimNames c = false) ?_ h ha hb
      intro e n hn
      rw [isReserved_withExpiry]
      exact hn
  | _ => trivial

theorem Left.isRecorded {k : Keyring} {now : Instant} {n m : Node} (h : Left now n m)
    (hn : n.IsRecorded k) : m.IsRecorded k := by
  cases h with
  | whole n h => exact hn
  | _ => trivial

theorem Left.isUntouched {now : Instant} {n m : Node} (h : Left now n m) (hn : n.IsUntouched) :
    m.IsUntouched := by
  cases h with
  | whole n h => exact hn
  | _ => trivial

theorem isRecorded_of_isSmart {k : Keyring} {n : Node} (h : n.isSmart = false) :
    n.IsRecorded k := by
  cases n with
  | claim e a p s g us => cases h
  | _ => trivial

theorem isUntouched_of_isSmart {n : Node} (h : n.isSmart = false) : n.IsUntouched := by
  cases n with
  | claim e a p s g us => cases h
  | _ => trivial

/-- What holds of every node that is not smart holds throughout a plain form. -/
theorem everywhere_disassemble {P : Node → Prop} (hP : ∀ n : Node, n.isSmart = false → P n)
    (n : Node) : n.disassemble.Everywhere P :=
  (isPlain_iff.1 (isPlain_disassemble n)).mono hP

end Node

/-! ## What assembly makes of a claim -/

namespace Grammar

theorem not_probes_withKeyring (k : Keyring) : ¬ (standard.withKeyring k).Probes := by
  simp [Probes, standard, withKeyring, setKeyring, register, plain]

theorem eq_of_checksWith {k k' : Keyring} (h : (standard.withKeyring k).ChecksWith k') :
    k' = k := by
  simpa [ChecksWith, standard, withKeyring, setKeyring, register, plain] using h

theorem readSignature_claimFields (tag : String) {p : PeerId} (hp : p.Valid) (x : Node)
    (g : List UInt8) :
    readSignature tag [x] (claimFields p g) = .ok ⟨p, x.disassemble, g⟩ := by
  have hparse : readPeerId p.name = .ok p := by
    rw [readPeerId, PeerId.parse?_eq_some_iff.2 ⟨rfl, hp⟩]
  simp only [readSignature, (namedArgument?_claimFields p g).1, (namedArgument?_claimFields p g).2,
    onlyArgument, Option.bind_some, ofString, string?, hparse, ofBlob]
  rfl

theorem prepare_verify {k : Keyring} {p : PeerId} {x : Node} {g : List UInt8} (ctx : Context)
    (e : Expiry) (nt : String) (ps : List (Node × Node)) (hp : p.Valid)
    (hs : (Signature.mk p x.disassemble g).verifies k = true) :
    (TagRule.verify (some k)).prepare ctx e [.predicate none "signed" [x] "" (claimFields p g)]
      nt ps = .ok (finishClaim ctx .verified ⟨p, x.disassemble, g⟩ []) := by
  simp only [TagRule.prepare, prepareVerify, requireKeyring, onlyArgument]
  show (do let s ← readSignature "signed" [x] (claimFields p g); _) = _
  rw [readSignature_claimFields "signed" hp]
  show (if _ then _ else _) = _
  rw [if_pos hs]

/-- A predicate `verify(signed(x, by: p, signature: g), field: text)` whose claim the keyring
accepts becomes verified, whatever its field is named. -/
theorem assemble_verify {k : Keyring} {p : PeerId} {x : Node} {g : List UInt8} (ctx : Context)
    (field text : String) (hp : p.Valid)
    (hs : (Signature.mk p x.disassemble g).verifies k = true) :
    ((standard.withKeyring k).assemble ctx (.predicate none "verify"
      [.predicate none "signed" [x] "" (claimFields p g)] ""
      [(ofString field, ofString text)])).outcome.1 =
    .ok (.claim ctx.expiry .verified p x.disassemble g
      [((ofString field).withExpiry ctx.expiry, (ofString text).withExpiry ctx.expiry)]) := by
  have hrule : (standard.withKeyring k).ruleFor? "verify" = some (.verify (some k)) := rfl
  have hgeneric : (standard.withKeyring k).generic = true := rfl
  rw [assemble, if_pos hgeneric]
  simp only [hrule, prepare_verify ctx _ _ _ hp hs]
  rfl

theorem recorded_of_yields {k : Keyring} {ctx : Context} {n m : Node}
    (h : ((standard.withKeyring k).assemble ctx n).Yields m) :
    m.Everywhere fun v => v.IsRecorded k := by
  refine everywhere_of_yields (D := fun _ => True) ?_ (fun x _ => ?_) (fun x hg => ?_)
    (fun s => trivial) ((isStock_standard.withKeyring k).upholds _) (fun _ _ => trivial) h
  · intro n m _ hm
    cases hm with
    | claim a s reserved hps hx hs hcheck hus =>
      cases a with
      | signed => trivial
      | verified =>
        obtain ⟨k', hk', hverifies⟩ := hcheck rfl
        rw [eq_of_checksWith hk'] at hverifies
        exact hverifies
    | own rule hrule => exact absurd hrule (isStock_standard.withKeyring k rule)
    | _ => trivial
  · exact everywhere_disassemble (fun v => isRecorded_of_isSmart) x
  · exact absurd hg (not_probes_withKeyring k)

theorem isReserved_of_yields {g : Grammar} (hg : g.IsStock) {ctx : Context} {n m : Node}
    (h : (g.assemble ctx n).Yields m) {reserved : List String}
    (hn : isReserved reserved n = false) : isReserved reserved m = false := by
  cases hs : m.string? with
  | none => rw [isReserved, hs]; rfl
  | some s =>
    have := string?_of_yields hg h hs
    rw [isReserved, this] at hn
    rw [isReserved, hs, hn]

theorem untouched_of_yields {k : Keyring} {ctx : Context} {n m : Node}
    (hn : n.Everywhere IsReserving)
    (h : ((standard.withKeyring k).assemble ctx n).Yields m) : m.Everywhere IsUntouched := by
  refine everywhere_of_yields ?_ (fun x _ => ?_) (fun x hg => ?_) (fun s => trivial)
    ((isStock_standard.withKeyring k).upholds _) hn h
  · intro n m hn hm
    cases hm with
    | @claim n x ps us a s reserved hps hx hs hcheck hus =>
      cases a with
      | signed => trivial
      | verified =>
        intro u hu
        obtain ⟨p, hp, hres, hk, _⟩ := hus.mem hu
        obtain ⟨e, t, as, nt, rfl, rfl | rfl⟩ := hps
        · exact isReserved_of_yields (isStock_standard.withKeyring k) hk hres
        · exact isReserved_of_yields (isStock_standard.withKeyring k) hk (hn.self p hp)
    | own rule hrule => exact absurd hrule (isStock_standard.withKeyring k rule)
    | _ => trivial
  · exact everywhere_disassemble (fun v => isUntouched_of_isSmart) x
  · exact absurd hg (not_probes_withKeyring k)

end Grammar

/-! ## Claims in a store -/

namespace Store

theorem recorded_run (k : Keyring) (config : StoreSettings) (steps : List Step) :
    ((empty (standard.withKeyring k) config).run steps).AllSlots
      fun d => d.Everywhere fun v => v.IsRecorded k := by
  refine allSlots_run (D := fun _ => True) (allSlots_empty _ _ _) ?_ ?_ ?_ fun a _ => ?_
  · exact fun ctx n m _ h => recorded_of_yields h
  · exact fun old new r hold hnew h => everywhere_update IsRecorded.withExpiry
      (fun hr _ hb => hr.isRecorded hb) hold hnew h
  · exact fun now old d hold h => everywhere_sweep Left.isRecorded hold h
  · cases a <;> trivial

theorem untouched_run (k : Keyring) (config : StoreSettings) {steps : List Step}
    (hsteps : ∀ a ∈ steps, a.Writes fun n => n.Everywhere IsReserving) :
    ((empty (standard.withKeyring k) config).run steps).AllSlots
      fun d => d.Everywhere IsUntouched := by
  refine allSlots_run (allSlots_empty _ _ _) ?_ ?_ ?_ hsteps
  · exact fun ctx n m hn h => untouched_of_yields hn h
  · exact fun old new r hold hnew h => everywhere_update IsUntouched.withExpiry
      (fun hr ha hb => hr.isUntouched ha hb) hold hnew h
  · exact fun now old d hold h => everywhere_sweep Left.isUntouched hold h

end Store

/-- Every verified claim that the standard grammar with a keyring makes, and every one in a slot of
a store after any run, has a recorded signature that the keyring accepts. It is genuine, that is,
its plain form shows an accepted signature, just if the user's fields leave it so; and all of them
are if no predicate `verify(..)` that was given names `by` or `signature`. -/
theorem verified_claims_genuine_iff (k : Keyring) :
    (∀ ctx n m, ((standard.withKeyring k).assemble ctx n).outcome.1 = .ok m →
      (m.Everywhere fun v => v.IsRecorded k ∧ (v.IsGenuine k ↔ v.IsAccepted k)) ∧
        (n.Everywhere IsReserving → m.Everywhere fun v => v.IsGenuine k)) ∧
    ∀ config steps, let s := (Store.empty (standard.withKeyring k) config).run steps
      (s.AllSlots fun d => d.Everywhere fun v =>
        v.IsRecorded k ∧ (v.IsGenuine k ↔ v.IsAccepted k)) ∧
        ((∀ a ∈ steps, a.Writes fun n => n.Everywhere IsReserving) →
          s.AllSlots fun d => d.Everywhere fun v => v.IsGenuine k) := by
  have hboth : ∀ {d : Node}, (d.Everywhere fun v => v.IsRecorded k) →
      d.Everywhere fun v => v.IsRecorded k ∧ (v.IsGenuine k ↔ v.IsAccepted k) :=
    fun h => h.mono fun v hv => ⟨hv, isGenuine_iff k v⟩
  have hgenuine : ∀ {d : Node}, (d.Everywhere fun v => v.IsRecorded k) →
      d.Everywhere IsUntouched → d.Everywhere fun v => v.IsGenuine k :=
    fun hr hu => (hr.and hu).mono fun v hv => .of_untouched hv.1 hv.2
  constructor
  · intro ctx n m h
    have hm := recorded_of_yields (.of_outcome h)
    exact ⟨hboth hm, fun hn => hgenuine hm (untouched_of_yields hn (.of_outcome h))⟩
  · intro config steps
    have hs := Store.recorded_run k config steps
    refine ⟨fun key w d hd => hboth (hs key w d hd), fun hsteps key w d hd => ?_⟩
    exact hgenuine (hs key w d hd) (Store.untouched_run k config hsteps key w d hd)

/-- The text `"hello"` signed by a keyring, under `verify(..)` with one field of the user's. -/
def signedGreeting (k : Keyring) (field text : String) : Node :=
  let s := Signature.create k (ofString "hello")
  .predicate none "verify" [.predicate none "signed" [ofString "hello"] ""
    (claimFields s.signer s.signature)] "" [(ofString field, ofString text)]

/-- What becomes of it. -/
def verifiedGreeting (k : Keyring) (field text : String) : Node :=
  let s := Signature.create k (ofString "hello")
  .claim none .verified s.signer (ofString "hello") s.signature [(ofString field, ofString text)]

/-- A keyring of one peer that trusts nobody else. -/
def localKeyring : Keyring :=
  (SharedSecrets.create ⟨"QmLocal"⟩ (Utf8.bytes "local-secret")).toKeyring

theorem assemble_signedGreeting (field text : String) :
    ((standard.withKeyring localKeyring).assemble {}
      (signedGreeting localKeyring field text)).outcome.1 =
    .ok (verifiedGreeting localKeyring field text) := by
  apply assemble_verify {} field text (p := localKeyring.localPeer) (by decide +kernel)
  simp [Signature.verifies, Signature.create, localKeyring, SharedSecrets.toKeyring,
    SharedSecrets.create, SharedSecrets.secret?, ofString, Node.disassemble]

/-- With a field of another name the claim that is verified is genuine, also in a store. -/
theorem verified_note_genuine :
    ((verifiedGreeting localKeyring "note" "QmMallory").Everywhere
      fun v => v.IsGenuine localKeyring) ∧
    ((Store.empty (standard.withKeyring localKeyring) {}).run
      [.write 0 ⟨"QmLocal"⟩ "k" (.dict none "" [(ofString "greeting",
        signedGreeting localKeyring "note" "QmMallory")]) {}, .sweep 5]).AllSlots
      fun d => d.Everywhere fun v => v.IsGenuine localKeyring := by
  have hreserving : (signedGreeting localKeyring "note" "QmMallory").Everywhere IsReserving := by
    simp [signedGreeting, claimFields, ofString, ofBlob, IsReserving, isReserved, string?,
      claimNames]
  refine ⟨((verified_claims_genuine_iff localKeyring).1 {} _ _
    (assemble_signedGreeting "note" "QmMallory")).2 hreserving,
    ((verified_claims_genuine_iff localKeyring).2 {} _).2 ?_⟩
  intro a ha
  simp only [List.mem_cons, List.not_mem_nil, or_false] at ha
  obtain rfl | rfl := ha
  · simp [Store.Step.Writes, hreserving, ofString, IsReserving]
  · trivial

/-- With a field named `by` it is not: the claim shows a signature by a peer that has signed
nothing. -/
theorem verified_claim_forged :
    ¬ ∀ (k : Keyring) (ctx : Context) (n m : Node), n.isPlain = true →
      ((standard.withKeyring k).assemble ctx n).outcome.1 = .ok m →
      m.Everywhere fun v => v.IsGenuine k := by
  intro h
  have hgenuine := (h localKeyring {} _ _ rfl (assemble_signedGreeting "by" "QmMallory")).self
  rw [isGenuine_iff] at hgenuine
  obtain ⟨s, hs, hverifies⟩ := hgenuine
  cases hs
  have hrefused : localKeyring.verify ⟨"QmMallory"⟩ = fun _ _ => false := by
    funext message signature
    simp [localKeyring, SharedSecrets.toKeyring, SharedSecrets.create, SharedSecrets.secret?]
  rw [Signature.verifies, hrefused] at hverifies
  cases hverifies

end PeerRecords
