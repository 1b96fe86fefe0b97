import PeerRecords.Wire.Basic
import PeerRecords.Proofs.Decimal
import PeerRecords.Proofs.Node.Distinct
import PeerRecords.Proofs.Wire.Json

/-
  Documents that travel.
  What is read is plain, without expirations, without repeated keys and elements, and without tags
  of named arguments (`everywhere_of_toNode`); so it is sendable (`sendable_of_toNode`). A sendable
  document travels and is read as one that matches it, part by part in order (`toNode_ofPlain`):
  neither the check of keys nor the dropping of repeated elements changes what was written.
-/

namespace PeerRecords

namespace Node

/-! ## Sendable documents -/

/-- The named arguments of a predicate have no tag of their own. -/
def IsUntagged : Node → Prop
  | .predicate _ _ _ nt _ => nt = ""
  | _ => True

instance : DecidablePred IsUntagged
  | .predicate _ _ _ nt _ => inferInstanceAs (Decidable (nt = ""))
  | .leaf _ _ | .dict _ _ _ | .set _ _ _ | .identity _ _ _ | .claim _ _ _ _ _ _ | .verify _ _ _
  | .reachable _ _ _ _ _ _ _ => .isTrue trivial

theorem IsUntagged.withExpiry (e : Expiry) {n : Node} (h : n.IsUntagged) :
    (n.withExpiry e).IsUntagged := by
  cases n <;> exact h

/-- All of a document travels: it is plain, holds nothing twice and its predicates are untagged. -/
structure Sendable (n : Node) : Prop where
  tidy : n.Tidy
  untagged : n.Everywhere IsUntagged

theorem Sendable.child {n c : Node} (h : n.Sendable) (hc : c ∈ n.children) : c.Sendable :=
  ⟨h.tidy.child hc, h.untagged.child hc⟩

/-- A document is sendable when each node in it is. -/
theorem sendable_iff {n : Node} : n.Sendable ↔
    n.isSmart = false ∧ n.isLocallyWellFormed = true ∧ n.IsUntagged ∧
      ∀ c ∈ n.children, c.Sendable := by
  constructor
  · intro h
    exact ⟨(isPlain_iff_children.1 h.tidy.1).1, (wellFormed_iff_children.1 h.tidy.2).1,
      h.untagged.self, fun c hc => h.child hc⟩
  · rintro ⟨hsmart, hlocal, huntagged, hc⟩
    exact ⟨⟨isPlain_iff_children.2 ⟨hsmart, fun c h => (hc c h).tidy.1⟩,
      wellFormed_iff_children.2 ⟨hlocal, fun c h => (hc c h).tidy.2⟩⟩,
      everywhere_iff.2 ⟨huntagged, fun c h => (hc c h).untagged⟩⟩

/-- Nodes that are like distinct nodes are distinct. -/
theorem areDistinct_of_alike {ns ms : List Node} (h : List.Forall₂ Alike ns ms)
    (hns : ∀ n ∈ ns, n.Tidy) (hms : ∀ m ∈ ms, m.Tidy) (hdistinct : areDistinct ns = true) :
    areDistinct ms = true := by
  have hpairs : List.Forall₂ (fun n m => (n.Tidy ∧ m.Tidy) ∧ Alike n m) ns ms := by
    have hright : List.Forall₂ (fun m n => m.Tidy ∧ Alike n m) ms ns :=
      (List.forall₂_and_left (p := Tidy) ms ns).2 ⟨hms, h.flip⟩
    have hleft := (List.forall₂_and_left (p := Tidy) ns ms).2 ⟨hns, hright.flip⟩
    exact hleft.imp fun n m hnm => ⟨⟨hnm.1, hnm.2.1⟩, hnm.2.2⟩
  refine areDistinct_iff.2 (pairwise_of_forall₂ hpairs (areDistinct_iff.1 hdistinct) ?_)
  rintro x x' y y' ⟨⟨hx, hy⟩, hxy⟩ ⟨⟨hx', hy'⟩, hxy'⟩ hne
  rw [Bool.eq_false_iff, Ne, hx.eqv_iff hx'] at hne
  rw [Bool.eq_false_iff, Ne, hy.eqv_iff hy']
  exact fun hlike => hne (hxy.trans (hlike.trans hxy'.symm))

/-! ## Trees that match in order -/

mutual

/-- Two plain trees are one tree but for the expirations and the digits of decimal numbers; their
entries, elements and arguments stand in one order. -/
def Matches : Node → Node → Prop
  | .leaf _ v, .leaf _ w => v.alike w = true
  | .dict _ t ps, .dict _ u qs => t = u ∧ MatchesEntries ps qs
  | .set _ t es, .set _ u fs => t = u ∧ MatchesAll es fs
  | .predicate _ t as nt ps, .predicate _ u bs nu qs =>
    t = u ∧ MatchesAll as bs ∧ nt = nu ∧ MatchesEntries ps qs
  | _, _ => False
termination_by structural n => n

/-- Nodes that match one by one. -/
def MatchesAll : List Node → List Node → Prop
  | [], [] => True
  | a :: as, b :: bs => Matches a b ∧ MatchesAll as bs
  | _, _ => False
termination_by structural as => as

/-- Entries that match one by one, in key and value. -/
def MatchesEntries : List (Node × Node) → List (Node × Node) → Prop
  | [], [] => True
  | (k, v) :: ps, q :: qs => Matches k q.1 ∧ Matches v q.2 ∧ MatchesEntries ps qs
  | _, _ => False
termination_by structural ps => ps

end

/-- Two entries match in key and value. -/
def MatchesEntry (p q : Node × Node) : Prop := Matches p.1 q.1 ∧ Matches p.2 q.2

theorem matchesAll_iff {as bs : List Node} : MatchesAll as bs ↔ List.Forall₂ Matches as bs := by
  induction as generalizing bs with
  | nil => cases bs <;> simp [MatchesAll]
  | cons a as ih => cases bs <;> simp [MatchesAll, ih]

theorem matchesEntries_iff {ps qs : List (Node × Node)} :
    MatchesEntries ps qs ↔ List.Forall₂ MatchesEntry ps qs := by
  induction ps generalizing qs with
  | nil => cases qs <;> simp [MatchesEntries]
  | cons p ps ih =>
    obtain ⟨k, v⟩ := p
    cases qs <;> simp [MatchesEntries, MatchesEntry, ih, and_assoc]

theorem matches_dict {e e' : Expiry} {t u : String} {ps qs : List (Node × Node)} :
    Matches (.dict e t ps) (.dict e' u qs) ↔ t = u ∧ List.Forall₂ MatchesEntry ps qs := by
  simp only [Matches, matchesEntries_iff]

theorem matches_set {e e' : Expiry} {t u : String} {es fs : List Node} :
    Matches (.set e t es) (.set e' u fs) ↔ t = u ∧ List.Forall₂ Matches es fs := by
  simp only [Matches, matchesAll_iff]

theorem matches_predicate {e e' : Expiry} {t u nt nu : String} {as bs : List Node}
    {ps qs : List (Node × Node)} :
    Matches (.predicate e t as nt ps) (.predicate e' u bs nu qs) ↔
      t = u ∧ List.Forall₂ Matches as bs ∧ nt = nu ∧ List.Forall₂ MatchesEntry ps qs := by
  simp only [Matches, matchesAll_iff, matchesEntries_iff]

/-- Trees that match are alike: their parts are paired off in the order they have. -/
theorem Matches.alike {a b : Node} (h : Matches a b) : Alike a b := by
  have paired : ∀ {ps qs : List (Node × Node)}, List.Forall₂ MatchesEntry ps qs →
      (∀ p ∈ ps, (∀ {b}, Matches p.1 b → Alike p.1 b) ∧ ∀ {b}, Matches p.2 b → Alike p.2 b) →
      PairedOff AlikeEntry ps qs := fun hpq ih => ⟨_, forall₂_of_mem hpq fun p hp q hpq =>
    ⟨(ih p hp).1 hpq.1, (ih p hp).2 hpq.2⟩, .refl _⟩
  induction a using Node.induct generalizing b with
  | leaf e v =>
    cases b with
    | leaf e' w => exact h
    | _ => exact h.elim
  | dict e t ps ih =>
    cases b with
    | dict e' u qs =>
      obtain ⟨rfl, hpq⟩ := matches_dict.1 h
      exact alike_dict.2 ⟨rfl, paired hpq ih⟩
    | _ => exact h.elim
  | set e t es ih =>
    cases b with
    | set e' u fs =>
      obtain ⟨rfl, hef⟩ := matches_set.1 h
      exact alike_set.2 ⟨rfl, _, forall₂_of_mem hef fun n hn m hnm => ih n hn hnm, .refl _⟩
    | _ => exact h.elim
  | predicate e t as nt ps iha ihp =>
    cases b with
    | predicate e' u bs nu qs =>
      obtain ⟨rfl, hab, rfl, hpq⟩ := matches_predicate.1 h
      exact alike_predicate.2
        ⟨rfl, forall₂_of_mem hab fun n hn m hnm => iha n hn hnm, rfl, paired hpq ihp⟩
    | _ => exact h.elim
  | identity e i us ih => exact h.elim
  | claim e a b s g us ihs ihu => exact h.elim
  | verify e s us ihs ihu => exact h.elim
  | reachable e m vt vs ut uvs us ihv ihn ihu => exact h.elim

theorem MatchesEntry.alike {p q : Node × Node} (h : MatchesEntry p q) : AlikeEntry p q :=
  ⟨h.1.alike, h.2.alike⟩

end Node

namespace Wire

open Node

/-! ## Lists of documents -/

theorem toElements_eq_ok {ws : List Wire} {ns : List Node} :
    toElements ws = .ok ns ↔ List.Forall₂ (fun w n => toNode w = .ok n) ws ns := by
  induction ws generalizing ns with
  | nil => cases ns <;> simp [toElements]
  | cons w ws ih =>
    rw [toElements]
    constructor
    · intro h
      obtain ⟨m, hm, h⟩ := bind_eq_ok.1 h
      obtain ⟨ms, hms, h⟩ := bind_eq_ok.1 h
      cases h
      exact .cons hm (ih.1 hms)
    · intro h
      cases h with
      | cons hm hms =>
        rw [hm, ih.2 hms]
        rfl

theorem toEntries_eq_ok {ps : List (Wire × Wire)} {qs : List (Node × Node)} :
    toEntries ps = .ok qs ↔
      List.Forall₂ (fun p q => toNode p.1 = .ok q.1 ∧ toNode p.2 = .ok q.2) ps qs := by
  induction ps generalizing qs with
  | nil => cases qs <;> simp [toEntries]
  | cons p ps ih =>
    obtain ⟨k, v⟩ := p
    rw [toEntries]
    constructor
    · intro h
      obtain ⟨k', hk, h⟩ := bind_eq_ok.1 h
      obtain ⟨v', hv, h⟩ := bind_eq_ok.1 h
      obtain ⟨rs, hrs, h⟩ := bind_eq_ok.1 h
      cases h
      exact .cons ⟨hk, hv⟩ (ih.1 hrs)
    · intro h
      cases h with
      | cons hq hrs =>
        rw [hq.1, hq.2, ih.2 hrs]
        rfl

theorem ofElements_eq_map (ns : List Node) : ofElements ns = ns.map ofPlain := by
  induction ns with
  | nil => rfl
  | cons n ns ih => rw [ofElements, ih, List.map_cons]

theorem ofEntries_eq_map (ps : List (Node × Node)) :
    ofEntries ps = ps.map fun p => (ofPlain p.1, ofPlain p.2) := by
  induction ps with
  | nil => rfl
  | cons p ps ih =>
    obtain ⟨k, v⟩ := p
    rw [ofEntries, ih, List.map_cons]

/-! ## What is read -/

theorem toNode_dict_eq_ok {t : String} {ps : List (Wire × Wire)} {n : Node}
    (h : toNode (.dict t ps) = .ok n) :
    ∃ qs, toEntries ps = .ok qs ∧ areDistinct (qs.map (·.1)) = true ∧ n = .dict none t qs := by
  rw [toNode] at h
  obtain ⟨qs, hqs, h⟩ := bind_eq_ok.1 h
  obtain ⟨rs, hrs, h⟩ := bind_eq_ok.1 h
  obtain ⟨hsame, hkeys⟩ := Dict.checkKeys_eq_ok_iff.1 hrs
  cases h
  subst hsame
  exact ⟨_, hqs, hkeys, rfl⟩

theorem toNode_set_eq_ok {t : String} {ws : List Wire} {n : Node}
    (h : toNode (.set t ws) = .ok n) :
    ∃ es, toElements ws = .ok es ∧ n = .set none t (es.foldl NodeSet.addTo []) := by
  rw [toNode] at h
  obtain ⟨es, hes, h⟩ := bind_eq_ok.1 h
  cases h
  exact ⟨es, hes, rfl⟩

theorem toNode_predicate_eq_ok {t : String} {ws : List Wire} {ps : List (Wire × Wire)} {n : Node}
    (h : toNode (.predicate t ws ps) = .ok n) :
    ∃ as qs, toElements ws = .ok as ∧ toEntries ps = .ok qs ∧
      areDistinct (qs.map (·.1)) = true ∧ n = .predicate none t as "" qs := by
  rw [toNode] at h
  obtain ⟨as, has, h⟩ := bind_eq_ok.1 h
  obtain ⟨qs, hqs, h⟩ := bind_eq_ok.1 h
  obtain ⟨rs, hrs, h⟩ := bind_eq_ok.1 h
  obtain ⟨hsame, hkeys⟩ := Dict.checkKeys_eq_ok_iff.1 hrs
  cases h
  subst hsame
  exact ⟨as, _, has, hqs, hkeys, rfl⟩

theorem sendable_leaf (e : Expiry) (v : Leaf) : (Node.leaf e v).Sendable :=
  sendable_iff.2 ⟨rfl, rfl, trivial, fun _ h => absurd h List.not_mem_nil⟩

theorem everywhere_of_toElements {P : Node → Prop} {ws : List Wire} {ns : List Node}
    (ih : ∀ w ∈ ws, ∀ {n}, toNode w = .ok n → n.Everywhere P) (h : toElements ws = .ok ns) :
    ∀ n ∈ ns, n.Everywhere P := by
  intro n hn
  obtain ⟨w, hw, hwn⟩ := exists_of_forall₂_right (toElements_eq_ok.1 h) hn
  exact ih w hw hwn

theorem everywhere_of_toEntries {P : Node → Prop} {ps : List (Wire × Wire)}
    {qs : List (Node × Node)}
    (ih : ∀ p ∈ ps, (∀ {n}, toNode p.1 = .ok n → n.Everywhere P) ∧
      ∀ {n}, toNode p.2 = .ok n → n.Everywhere P)
    (h : toEntries ps = .ok qs) : ∀ q ∈ qs, q.1.Everywhere P ∧ q.2.Everywhere P := by
  intro q hq
  obtain ⟨p, hp, hk, hv⟩ := exists_of_forall₂_right (toEntries_eq_ok.1 h) hq
  exact ⟨(ih p hp).1 hk, (ih p hp).2 hv⟩

/-- Reading makes four kinds of nodes, all without expiration: what holds of each holds of
everything that is read. -/
theorem everywhere_of_toNode {P : Node → Prop} (leaf : ∀ v, P (.leaf none v))
    (dict : ∀ t ps, areDistinct (ps.map (·.1)) = true → P (.dict none t ps))
    (set : ∀ t es, areDistinct es = true → P (.set none t es))
    (predicate : ∀ t as ps, areDistinct (ps.map (·.1)) = true → P (.predicate none t as "" ps))
    {w : Wire} {n : Node} (h : toNode w = .ok n) : n.Everywhere P := by
  induction w using Wire.induct generalizing n with
  | string s => cases h; exact everywhere_leaf.2 (leaf _)
  | bool b => cases h; exact everywhere_leaf.2 (leaf _)
  | blob bytes => cases h; exact everywhere_leaf.2 (leaf _)
  | int s =>
    rw [toNode] at h
    obtain ⟨i, _, h⟩ := bind_eq_ok.1 h
    cases h
    exact everywhere_leaf.2 (leaf _)
  | float s =>
    rw [toNode] at h
    obtain ⟨d, _, h⟩ := bind_eq_ok.1 h
    cases h
    exact everywhere_leaf.2 (leaf _)
  | dict t ps ih =>
    obtain ⟨qs, hqs, hkeys, rfl⟩ := toNode_dict_eq_ok h
    exact everywhere_dict.2 ⟨dict t _ hkeys, everywhere_of_toEntries ih hqs⟩
  | set t es ih =>
    obtain ⟨fs, hfs, rfl⟩ := toNode_set_eq_ok h
    refine everywhere_set.2 ⟨set t _ (NodeSet.areDistinct_addAll fs rfl), fun n hn => ?_⟩
    exact everywhere_of_toElements ih hfs n
      ((NodeSet.mem_addAll hn).resolve_left List.not_mem_nil)
  | predicate t as ps iha ihp =>
    obtain ⟨bs, qs, hbs, hqs, hkeys, rfl⟩ := toNode_predicate_eq_ok h
    exact everywhere_predicate.2
      ⟨predicate t bs _ hkeys, everywhere_of_toElements iha hbs, everywhere_of_toEntries ihp hqs⟩

/-- A document that is read is sendable again. -/
theorem sendable_of_toNode {w : Wire} {n : Node} (h : toNode w = .ok n) : n.Sendable where
  tidy := by
    refine ⟨isPlain_iff.2 (everywhere_of_toNode ?_ ?_ ?_ ?_ h),
      wellFormed_iff.2 (everywhere_of_toNode (fun _ => rfl) ?_ ?_ ?_ h)⟩
    · exact fun _ => rfl
    · exact fun _ _ _ => rfl
    · exact fun _ _ _ => rfl
    · exact fun _ _ _ _ => rfl
    · exact fun _ _ hkeys => hkeys
    · exact fun _ _ hdistinct => hdistinct
    · exact fun _ _ _ hkeys => hkeys
  untagged := everywhere_of_toNode (fun _ => trivial) (fun _ _ _ => trivial) (fun _ _ _ => trivial)
    (fun _ _ _ _ => rfl) h

/-- A document that is read has no expirations. -/
theorem expiry_of_toNode {w : Wire} {n : Node} (h : toNode w = .ok n) :
    n.Everywhere fun v => v.expiry = none :=
  everywhere_of_toNode (fun _ => rfl) (fun _ _ _ => rfl) (fun _ _ _ => rfl) (fun _ _ _ _ => rfl) h

/-! ## What travels is read -/

/-- A literal is read as one that is alike and travels in the same way. -/
theorem toNode_ofLeaf (v : Leaf) :
    ∃ w, toNode (ofLeaf v) = .ok (.leaf none w) ∧ v.alike w = true ∧ ofLeaf w = ofLeaf v := by
  cases v with
  | string s => exact ⟨.string s, rfl, leaf_alike_refl _, rfl⟩
  | bool b => exact ⟨.bool b, rfl, leaf_alike_refl _, rfl⟩
  | blob bytes => exact ⟨.blob bytes, rfl, leaf_alike_refl _, rfl⟩
  | int i =>
    refine ⟨.int i, ?_, leaf_alike_refl _, rfl⟩
    rw [ofLeaf, toNode, readInt, String.toList_ofList, Numeral.literal?_text]
    rfl
  | float d =>
    obtain ⟨d', hread, halike, htext⟩ := Decimal.parse?_text d
    refine ⟨.float d', ?_, ?_, ?_⟩
    · rw [ofLeaf, toNode, readFloat, String.toList_ofList, hread]
      rfl
    · rw [leaf_alike_comm]
      exact halike
    · rw [ofLeaf, ofLeaf, htext]

/-- A document is read as one that matches it. -/
def Travels (n : Node) : Prop := ∃ m, toNode (ofPlain n) = .ok m ∧ Matches n m

theorem toElements_ofElements {ns : List Node} (h : ∀ n ∈ ns, Travels n) :
    ∃ ms, toElements (ofElements ns) = .ok ms ∧ List.Forall₂ Matches ns ms := by
  obtain ⟨ms, hms⟩ := exists_forall₂ h
  refine ⟨ms, ?_, hms.imp fun n m hm => hm.2⟩
  rw [toElements_eq_ok, ofElements_eq_map, List.forall₂_map_left_iff]
  exact hms.imp fun n m hm => hm.1

theorem toEntries_ofEntries {ps : List (Node × Node)}
    (h : ∀ p ∈ ps, Travels p.1 ∧ Travels p.2) :
    ∃ qs, toEntries (ofEntries ps) = .ok qs ∧ List.Forall₂ MatchesEntry ps qs := by
  have hpairs : ∀ p ∈ ps, ∃ q : Node × Node, (toNode (ofPlain p.1) = .ok q.1 ∧
      toNode (ofPlain p.2) = .ok q.2) ∧ MatchesEntry p q := by
    intro p hp
    obtain ⟨⟨k, hk, hkk⟩, v, hv, hvv⟩ := h p hp
    exact ⟨(k, v), ⟨hk, hv⟩, hkk, hvv⟩
  obtain ⟨qs, hqs⟩ := exists_forall₂ hpairs
  refine ⟨qs, ?_, hqs.imp fun p q hq => hq.2⟩
  rw [toEntries_eq_ok, ofEntries_eq_map, List.forall₂_map_left_iff]
  exact hqs.imp fun p q hq => hq.1

/-- Entries whose keys are distinct pass the check when they are read. -/
theorem checkKeys_of_matches {ps qs : List (Node × Node)} (h : List.Forall₂ MatchesEntry ps qs)
    (hps : ∀ p ∈ ps, p.1.Tidy) (hqs : toEntries (ofEntries ps) = .ok qs)
    (hkeys : areDistinct (ps.map (·.1)) = true) : Dict.checkKeys qs = .ok qs := by
  have hread : ∀ q ∈ qs, q.1.Tidy := by
    intro q hq
    obtain ⟨p, _, hk, _⟩ := exists_of_forall₂_right (toEntries_eq_ok.1 hqs) hq
    exact (sendable_of_toNode hk).tidy
  have halike : List.Forall₂ Alike (ps.map (·.1)) (qs.map (·.1)) :=
    List.forall₂_map_left_iff.2 (List.forall₂_map_right_iff.2 (h.imp fun p q hpq => hpq.1.alike))
  refine Dict.checkKeys_eq_ok_iff.2 ⟨rfl, areDistinct_of_alike halike ?_ ?_ hkeys⟩
  · exact List.forall_mem_map.2 hps
  · exact List.forall_mem_map.2 hread

/-- Elements that are distinct are read without one of them being dropped. -/
theorem addAll_of_matches {es fs : List Node} (h : List.Forall₂ Matches es fs)
    (hes : ∀ n ∈ es, n.Tidy) (hfs : toElements (ofElements es) = .ok fs)
    (hdistinct : areDistinct es = true) : fs.foldl NodeSet.addTo [] = fs := by
  have hread : ∀ f ∈ fs, f.Tidy := by
    intro f hf
    obtain ⟨w, _, hw⟩ := exists_of_forall₂_right (toElements_eq_ok.1 hfs) hf
    exact (sendable_of_toNode hw).tidy
  have halike : List.Forall₂ Alike es fs := h.imp fun n m hnm => hnm.alike
  exact NodeSet.addAll_nil (areDistinct_of_alike halike hes hread hdistinct)

/-- A dict whose parts travel is read with its entries in order. -/
theorem toNode_ofPlain_dict {e : Expiry} {t : String} {ps : List (Node × Node)}
    (hkeys : areDistinct (ps.map (·.1)) = true) (hps : ∀ p ∈ ps, p.1.Tidy)
    (h : ∀ p ∈ ps, Travels p.1 ∧ Travels p.2) :
    ∃ qs, toNode (ofPlain (.dict e t ps)) = .ok (.dict none t qs) ∧
      List.Forall₂ MatchesEntry ps qs := by
  obtain ⟨qs, hqs, hmatch⟩ := toEntries_ofEntries h
  refine ⟨qs, ?_, hmatch⟩
  rw [ofPlain, toNode, hqs]
  exact bind_eq_ok.2 ⟨qs, rfl, bind_eq_ok.2 ⟨qs, checkKeys_of_matches hmatch hps hqs hkeys, rfl⟩⟩

/-- A sendable document is read as one that matches it. -/
theorem toNode_ofPlain {n : Node} (h : n.Sendable) : Travels n := by
  induction n using Node.induct with
  | leaf e v =>
    obtain ⟨w, hw, halike, _⟩ := toNode_ofLeaf v
    exact ⟨.leaf none w, hw, halike⟩
  | dict e t ps ih =>
    obtain ⟨_, hkeys, _, hc⟩ := sendable_iff.1 h
    have hps := forall_entryNodes.1 hc
    obtain ⟨qs, hqs, hmatch⟩ := toNode_ofPlain_dict (e := e) (t := t) hkeys
      (fun p hp => (hps p hp).1.tidy)
      fun p hp => ⟨(ih p hp).1 (hps p hp).1, (ih p hp).2 (hps p hp).2⟩
    exact ⟨_, hqs, matches_dict.2 ⟨rfl, hmatch⟩⟩
  | set e t es ih =>
    obtain ⟨_, hdistinct, _, hc⟩ := sendable_iff.1 h
    obtain ⟨fs, hfs, hmatch⟩ := toElements_ofElements fun n hn => ih n hn (hc n hn)
    have hadd := addAll_of_matches hmatch (fun n hn => (hc n hn).tidy) hfs hdistinct
    refine ⟨.set none t fs, ?_, matches_set.2 ⟨rfl, hmatch⟩⟩
    rw [ofPlain, toNode, hfs]
    exact congrArg Except.ok (congrArg (Node.set none t) hadd)
  | predicate e t as nt ps iha ihp =>
    obtain ⟨_, hkeys, hnt, hc⟩ := sendable_iff.1 h
    obtain ⟨has, hentries⟩ := List.forall_mem_append.1 hc
    have hps := forall_entryNodes.1 hentries
    obtain ⟨bs, hbs, hargs⟩ := toElements_ofElements fun n hn => iha n hn (has n hn)
    obtain ⟨qs, hqs, hmatch⟩ := toEntries_ofEntries fun p hp =>
      ⟨(ihp p hp).1 (hps p hp).1, (ihp p hp).2 (hps p hp).2⟩
    have hcheck := checkKeys_of_matches hmatch (fun p hp => (hps p hp).1.tidy) hqs hkeys
    refine ⟨.predicate none t bs "" qs, ?_, matches_predicate.2 ⟨rfl, hargs, hnt, hmatch⟩⟩
    rw [ofPlain, toNode, hbs, hqs]
    exact bind_eq_ok.2 ⟨bs, rfl, bind_eq_ok.2 ⟨qs, rfl, bind_eq_ok.2 ⟨qs, hcheck, rfl⟩⟩⟩
  | identity e i us ih => exact absurd h.tidy.1 (by simp [isPlain])
  | claim e a b s g us ihs ihu => exact absurd h.tidy.1 (by simp [isPlain])
  | verify e s us ihs ihu => exact absurd h.tidy.1 (by simp [isPlain])
  | reachable e m vt vs ut uvs us ihv ihn ihu => exact absurd h.tidy.1 (by simp [isPlain])

end Wire

end PeerRecords
