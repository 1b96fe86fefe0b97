import PeerRecords.Proofs.Wire.RoundTrip

/-
  Reading, writing and reading again.
  A predicate that is read may leave its arguments out, and one that is written spells both of their
  lists out; so the text that is written of a document may go one array deeper than the text that it
  was read from. That is all that can be gained: whatever else a reader fills in or passes over
  stays within the levels that it had (`readsWithin`). What is read of a written document is
  written as before (`ofPlain_of_toNode`), since numbers keep their digits from then on.

  Main statement: `reread_iff`.
-/

namespace PeerRecords

open Node

/-! ## Written as before -/

namespace Wire

theorem ofElements_of_toElements {ns ms : List Node}
    (ih : ∀ n ∈ ns, ∀ {m}, toNode (ofPlain n) = .ok m → ofPlain m = ofPlain n)
    (h : toElements (ofElements ns) = .ok ms) : ofElements ms = ofElements ns := by
  induction ns generalizing ms with
  | nil =>
    cases h
    rfl
  | cons n ns ihs =>
    rw [ofElements, toElements] at h
    obtain ⟨m, hm, h⟩ := bind_eq_ok.1 h
    obtain ⟨rest, hrest, h⟩ := bind_eq_ok.1 h
    cases h
    rw [ofElements, ofElements, ih n List.mem_cons_self hm,
      ihs (fun x hx => ih x (List.mem_cons_of_mem _ hx)) hrest]

theorem ofEntries_of_toEntries {ps qs : List (Node × Node)}
    (ih : ∀ p ∈ ps, (∀ {m}, toNode (ofPlain p.1) = .ok m → ofPlain m = ofPlain p.1) ∧
      ∀ {m}, toNode (ofPlain p.2) = .ok m → ofPlain m = ofPlain p.2)
    (h : toEntries (ofEntries ps) = .ok qs) : ofEntries qs = ofEntries ps := by
  induction ps generalizing qs with
  | nil =>
    cases h
    rfl
  | cons p ps ihs =>
    obtain ⟨k, v⟩ := p
    obtain ⟨ihk, ihv⟩ := ih (k, v) List.mem_cons_self
    rw [ofEntries, toEntries] at h
    obtain ⟨k', hk, h⟩ := bind_eq_ok.1 h
    obtain ⟨v', hv, h⟩ := bind_eq_ok.1 h
    obtain ⟨rest, hrest, h⟩ := bind_eq_ok.1 h
    cases h
    rw [ofEntries, ofEntries, ihk hk, ihv hv,
      ihs (fun x hx => ih x (List.mem_cons_of_mem _ hx)) hrest]

/-- What is read of a sendable document travels as the document does. -/
theorem ofPlain_of_toNode {n m : Node} (h : n.Sendable) (hm : toNode (ofPlain n) = .ok m) :
    ofPlain m = ofPlain n := by
  induction n using Node.induct generalizing m with
  | leaf e v =>
    obtain ⟨w, hw, _, hsame⟩ := toNode_ofLeaf v
    rw [ofPlain, hw] at hm
    obtain rfl := Except.ok.inj hm
    exact hsame
  | dict e t ps ih =>
    have hps := forall_entryNodes.1 (sendable_iff.1 h).2.2.2
    obtain ⟨qs, hqs, _, rfl⟩ := toNode_dict_eq_ok hm
    rw [ofPlain, ofPlain, ofEntries_of_toEntries
      (fun p hp => ⟨(ih p hp).1 (hps p hp).1, (ih p hp).2 (hps p hp).2⟩) hqs]
  | set e t es ih =>
    obtain ⟨_, hdistinct, _, hc⟩ := sendable_iff.1 h
    have hes : ∀ n ∈ es, n.Sendable := hc
    obtain ⟨fs, hfs, hmatch⟩ := toElements_ofElements fun n hn => toNode_ofPlain (hes n hn)
    have hadd := addAll_of_matches hmatch (fun n hn => (hes n hn).tidy) hfs hdistinct
    obtain ⟨fs', hfs', rfl⟩ := toNode_set_eq_ok hm
    obtain rfl : fs = fs' := Except.ok.inj (hfs.symm.trans hfs')
    rw [hadd, ofPlain, ofPlain, ofElements_of_toElements (fun n hn => ih n hn (hes n hn)) hfs]
  | predicate e t as nt ps iha ihp =>
    obtain ⟨has, hentries⟩ := List.forall_mem_append.1 (sendable_iff.1 h).2.2.2
    have hps := forall_entryNodes.1 hentries
    obtain ⟨bs, qs, hbs, hqs, _, rfl⟩ := toNode_predicate_eq_ok hm
    rw [ofPlain, ofPlain, ofElements_of_toElements (fun n hn => iha n hn (has n hn)) hbs,
      ofEntries_of_toEntries
        (fun p hp => ⟨(ihp p hp).1 (hps p hp).1, (ihp p hp).2 (hps p hp).2⟩) hqs]
  | identity e i us ih => exact absurd h.tidy.1 (by simp [isPlain])
  | claim e a b s g us ihs ihu => exact absurd h.tidy.1 (by simp [isPlain])
  | verify e s us ihs ihu => exact absurd h.tidy.1 (by simp [isPlain])
  | reachable e m vt vs ut uvs us ihv ihn ihu => exact absurd h.tidy.1 (by simp [isPlain])

end Wire

/-! ## Levels that reading needs -/

namespace Node

/-- A predicate without arguments. -/
def IsBare : Node → Prop
  | .predicate _ _ as _ ps => as = [] ∧ ps = []
  | _ => False

/-- Bare predicates stand in the document only if the text may go deeper by `c`. -/
def Allows (c : Nat) (n : Node) : Prop := n.Everywhere fun v => v.IsBare → 1 ≤ c

/-- What is read with so many levels left is written with at most `c` levels more. -/
def ReadsWithin (c k : Nat) : Prop :=
  ∀ {j : Json} {w : Wire} {n : Node}, Wire.ofJson? k j = some w → w.toNode = .ok n → n.Allows c →
    n.depth ≤ k + c

end Node

theorem exists_of_mapM {α β : Type} {f : α → Option β} {xs : List α} {ys : List β}
    (h : xs.mapM f = some ys) {y : β} (hy : y ∈ ys) : ∃ x, f x = some y := by
  induction xs generalizing ys with
  | nil =>
    cases h
    exact absurd hy List.not_mem_nil
  | cons x xs ih =>
    rw [List.mapM_cons] at h
    obtain ⟨z, hz, h⟩ := Option.bind_eq_some_iff.1 h
    obtain ⟨zs, hzs, h⟩ := Option.bind_eq_some_iff.1 h
    cases h
    obtain rfl | hy := List.mem_cons.1 hy
    · exact ⟨x, hz⟩
    · exact ih hzs hy

namespace Wire

variable {c k : Nat} {j : Json} {w : Wire}

/-- The elements that an array gives are written within the levels below it. -/
theorem depth_le_of_elementsOfJson? {ws : List Wire} {ns : List Node}
    (ih : ∀ l < k, ReadsWithin c l) (hread : elementsOfJson? k j = some ws)
    (hns : toElements ws = .ok ns) : 1 ≤ k ∧ ∀ n ∈ ns, n.Allows c → n.depth + 1 ≤ k + c := by
  unfold elementsOfJson? at hread
  split at hread
  next l items =>
    refine ⟨by omega, fun n hn hallows => ?_⟩
    obtain ⟨w, hw, hwn⟩ := exists_of_forall₂_right (toElements_eq_ok.1 hns) hn
    obtain ⟨i, hi⟩ := exists_of_mapM hread hw
    have hdepth := ih l (by omega) hi hwn hallows
    omega
  next => cases hread

/-- The entries that an array gives are written within the levels below it, each as an array. -/
theorem entriesDepth_le_of_entriesOfJson? {ws : List (Wire × Wire)} {ps : List (Node × Node)}
    (ih : ∀ l < k, ReadsWithin c l) (hread : entriesOfJson? k j = some ws)
    (hps : toEntries ws = .ok ps) :
    1 ≤ k ∧ ((∀ n ∈ entryNodes ps, n.Allows c) → entriesDepth ps ≤ k + c - 1) := by
  unfold entriesOfJson? at hread
  split at hread
  next l items =>
    refine ⟨by omega, fun hallows => entriesDepth_le_iff.2 fun p hp => ?_⟩
    obtain ⟨w, hw, hkey, hvalue⟩ := exists_of_forall₂_right (toEntries_eq_ok.1 hps) hp
    obtain ⟨i, hi⟩ := exists_of_mapM hread hw
    unfold entryOfJson? at hi
    split at hi
    next l kj vj =>
      obtain ⟨wk, hwk, hi⟩ := Option.bind_eq_some_iff.1 hi
      obtain ⟨wv, hwv, hi⟩ := Option.bind_eq_some_iff.1 hi
      cases hi
      have hkdepth := ih l (by omega) hwk hkey (hallows p.1 (fst_mem_entryNodes hp))
      have hvdepth := ih l (by omega) hwv hvalue (hallows p.2 (snd_mem_entryNodes hp))
      omega
    next => cases hi
  next => cases hread

theorem depth_le_of_dictOfJson? {n : Node} (ih : ∀ l < k, ReadsWithin c l)
    (hread : dictOfJson? k j = some w) (hn : w.toNode = .ok n) (hallows : n.Allows c) :
    n.depth ≤ k + 1 + c := by
  unfold dictOfJson? at hread
  split at hread
  next l =>
    split at hread
    next tag pairs _ =>
      obtain ⟨t, _, hread⟩ := Option.bind_eq_some_iff.1 hread
      obtain ⟨ws, hws, hread⟩ := Option.bind_eq_some_iff.1 hread
      obtain ⟨array, _, hws⟩ := Option.bind_eq_some_iff.1 hws
      cases hread
      obtain ⟨ps, hps, _, rfl⟩ := toNode_dict_eq_ok hn
      obtain ⟨hl, hdepth⟩ :=
        entriesDepth_le_of_entriesOfJson? (fun m hm => ih m (by omega)) hws hps
      have hentries := hdepth fun n hn => hallows.child hn
      rw [depth_dict]
      omega
    next => cases hread
  next => cases hread

theorem depth_le_of_setOfJson? {n : Node} (ih : ∀ l < k, ReadsWithin c l)
    (hread : setOfJson? k j = some w) (hn : w.toNode = .ok n) (hallows : n.Allows c) :
    n.depth ≤ k + 1 + c := by
  unfold setOfJson? at hread
  split at hread
  next l =>
    split at hread
    next tag elements _ =>
      obtain ⟨t, _, hread⟩ := Option.bind_eq_some_iff.1 hread
      obtain ⟨ws, hws, hread⟩ := Option.bind_eq_some_iff.1 hread
      obtain ⟨array, _, hws⟩ := Option.bind_eq_some_iff.1 hws
      cases hread
      obtain ⟨es, hes, rfl⟩ := toNode_set_eq_ok hn
      obtain ⟨hl, hdepth⟩ := depth_le_of_elementsOfJson? (fun m hm => ih m (by omega)) hws hes
      have helements : elementsDepth (es.foldl NodeSet.addTo []) ≤ l + c - 1 :=
        elementsDepth_le_iff.2 fun e he => by
          have hmem := (NodeSet.mem_addAll he).resolve_left List.not_mem_nil
          have hdepth := hdepth e hmem (hallows.child he)
          omega
      rw [depth_set]
      omega
    next => cases hread
  next => cases hread

/-- What a field with a default gives is the default, or what is read of the field. -/
theorem withDefault?_eq_some {α : Type} {default x : α} {read : Json → Option α}
    {field : Option Json} (h : Json.withDefault? default read field = some x) :
    x = default ∨ ∃ j, read j = some x := by
  cases field with
  | none => exact .inl (Option.some.inj h).symm
  | some j => exact .inr ⟨j, h⟩

theorem depth_le_of_predicateOfJson? {n : Node} (ih : ∀ l < k, ReadsWithin c l)
    (hread : predicateOfJson? k j = some w) (hn : w.toNode = .ok n) (hallows : n.Allows c) :
    n.depth ≤ k + 1 + c := by
  unfold predicateOfJson? at hread
  split at hread
  next l =>
    split at hread
    next tag args named _ =>
      obtain ⟨t, _, hread⟩ := Option.bind_eq_some_iff.1 hread
      obtain ⟨wargs, hwargs, hread⟩ := Option.bind_eq_some_iff.1 hread
      obtain ⟨wnamed, hwnamed, hread⟩ := Option.bind_eq_some_iff.1 hread
      cases hread
      obtain ⟨as, ps, has, hps, _, rfl⟩ := toNode_predicate_eq_ok hn
      have helements : (as = [] ∨ 1 ≤ l) ∧ elementsDepth as ≤ l + c - 1 := by
        obtain rfl | ⟨array, hread⟩ := withDefault?_eq_some hwargs
        · cases has
          exact ⟨.inl rfl, Nat.zero_le _⟩
        · obtain ⟨hl, hdepth⟩ := depth_le_of_elementsOfJson? (fun m hm => ih m (by omega)) hread has
          refine ⟨.inr hl, elementsDepth_le_iff.2 fun a ha => ?_⟩
          have hdepth := hdepth a ha (hallows.child (List.mem_append_left _ ha))
          omega
      have hentries : (ps = [] ∨ 1 ≤ l) ∧ entriesDepth ps ≤ l + c - 1 := by
        obtain rfl | ⟨array, hread⟩ := withDefault?_eq_some hwnamed
        · cases hps
          exact ⟨.inl rfl, Nat.zero_le _⟩
        · obtain ⟨hl, hdepth⟩ :=
            entriesDepth_le_of_entriesOfJson? (fun m hm => ih m (by omega)) hread hps
          exact ⟨.inr hl, hdepth fun n hn => hallows.child (List.mem_append_right _ hn)⟩
      -- A predicate whose lists are both left out is where a level is gained.
      have hpos : 1 ≤ l + c := by
        obtain has | hl := helements.1
        · obtain hps | hl := hentries.1
          · have hbare := hallows.self ⟨has, hps⟩
            omega
          · omega
        · omega
      rw [depth_predicate]
      omega
    next => cases hread
  next => cases hread

/-- Whatever is read is written within the levels that the reader had, and one more if there are
predicates without arguments. -/
theorem readsWithin (c k : Nat) : ReadsWithin c k := by
  induction k using Nat.strongRecOn with
  | ind k ih =>
    intro j w n hread hn hallows
    unfold ofJson? at hread
    split at hread
    next l name body =>
      have hbelow : ∀ m < l, ReadsWithin c m := fun m hm => ih m (by omega)
      have hflat : n.depth = 1 → n.depth ≤ l + 1 + c := by omega
      split_ifs at hread
      · obtain ⟨s, _, rfl⟩ := Option.map_eq_some_iff.1 hread
        cases hn
        exact hflat rfl
      · obtain ⟨b, _, rfl⟩ := Option.map_eq_some_iff.1 hread
        cases hn
        exact hflat rfl
      · obtain ⟨bytes, hbytes, rfl⟩ := Option.map_eq_some_iff.1 hread
        cases hn
        have hl : 1 ≤ l := by
          cases l with
          | zero => cases hbytes
          | succ l => exact Nat.succ_pos l
        have hdepth := depth_ofBlob bytes
        unfold ofBlob at hdepth
        omega
      · obtain ⟨s, _, rfl⟩ := Option.map_eq_some_iff.1 hread
        obtain ⟨i, _, hint⟩ := bind_eq_ok.1 hn
        cases hint
        exact hflat rfl
      · obtain ⟨s, _, rfl⟩ := Option.map_eq_some_iff.1 hread
        obtain ⟨d, _, hfloat⟩ := bind_eq_ok.1 hn
        cases hfloat
        exact hflat rfl
      · exact depth_le_of_dictOfJson? hbelow hread hn hallows
      · exact depth_le_of_setOfJson? hbelow hread hn hallows
      · exact depth_le_of_predicateOfJson? hbelow hread hn hallows
    next => cases hread

end Wire

/-! ## Reading again -/

namespace Node

/-- A document that is read is written within the limit of the reader, and one level more if there
are predicates without arguments. -/
theorem nesting_le_of_unmarshal {c : Nat} {bytes : List UInt8} {n : Node}
    (h : unmarshal bytes = .ok n) (hallows : n.Allows c) : n.nesting ≤ Json.nestingLimit + c := by
  rw [nesting_of_isPlain (sendable_of_unmarshal h).tidy.1]
  unfold unmarshal at h
  split at h
  next w hw =>
    obtain ⟨j, _, hread⟩ := Option.bind_eq_some_iff.1 hw
    exact Wire.readsWithin c Json.nestingLimit hread h hallows
  next => cases h

/-- What is read of the text of a sendable document has the same text. -/
theorem marshal_of_unmarshal_marshal {n m : Node} (hn : n.Sendable)
    (h : unmarshal n.marshal = .ok m) : m.marshal = n.marshal := by
  have hm := (sendable_of_unmarshal h).tidy.1
  rw [unmarshal_marshal] at h
  split at h
  next =>
    rw [Wire.ofNode, disassemble_of_isPlain hn.tidy.1] at h
    rw [marshal, marshal, marshalText, marshalText, Wire.ofNode, Wire.ofNode,
      disassemble_of_isPlain hm, disassemble_of_isPlain hn.tidy.1, Wire.ofPlain_of_toNode hn h]
  next => cases h

/-- A document that has been read is written with at most one level more than the reader goes into.
If its text keeps to the limit it is read again, as a document that is equal to it and has the same
text; otherwise the text is refused. It keeps to the limit if every predicate in the document has
arguments. -/
theorem reread_iff {bytes : List UInt8} {n : Node} (h : unmarshal bytes = .ok n) :
    n.nesting ≤ Json.nestingLimit + 1 ∧
    ((∃ m, unmarshal n.marshal = .ok m ∧ m.eqv n = true ∧ m.marshal = n.marshal) ↔
      n.nesting ≤ Json.nestingLimit) ∧
    (n.nesting = Json.nestingLimit + 1 → unmarshal n.marshal = .error .format) ∧
    ((n.Everywhere fun v => ¬ v.IsBare) → n.nesting ≤ Json.nestingLimit) := by
  have hsendable := sendable_of_unmarshal h
  refine ⟨nesting_le_of_unmarshal h fun v _ _ => Nat.le_refl 1, ⟨?_, fun hlimit => ?_⟩,
    fun hdeep => ?_, fun hbare => ?_⟩
  · rintro ⟨m, hm, _⟩
    rw [unmarshal_marshal] at hm
    split at hm
    next hlimit => exact hlimit
    next => cases hm
  · obtain ⟨m, hm, heqv, _⟩ := marshal_travels hsendable.tidy.2 hsendable.untagged hlimit
    exact ⟨m, hm, heqv, marshal_of_unmarshal_marshal hsendable hm⟩
  · rw [unmarshal_marshal, if_neg (by omega)]
  · exact nesting_le_of_unmarshal (c := 0) h fun v hv hv' => absurd hv' (hbare v hv)

/-- A set written as an array, with an element twice, the second time with a sign and zeros, and
with a predicate that leaves its arguments out. -/
def looseText : List UInt8 := Utf8.bytes
  "\x7b\"set\":[\"t\",[\x7b\"int\":\"1\"\x7d,\x7b\"int\":\"+01\"\x7d,\x7b\"predicate\":[\"f\"]\x7d]]\x7d"

/-- It is read as a set of two, which is written out and read again. -/
theorem looseText_reread : ∃ n, unmarshal looseText = .ok n ∧
    ∃ m, unmarshal n.marshal = .ok m ∧ m.eqv n = true ∧ m.marshal = n.marshal := by
  have hread : (unmarshal looseText).toOption.any
      (fun n => decide (n.nesting ≤ Json.nestingLimit)) = true := by decide +kernel
  obtain ⟨n, hn, hlimit⟩ := (Option.any_eq_true _ _).1 hread
  have hn : unmarshal looseText = .ok n := toOption_eq_some.1 hn
  exact ⟨n, hn, (reread_iff hn).2.1.2 (of_decide_eq_true hlimit)⟩

/-- The text of a set around a text. -/
def inSet (text : List Char) : List Char :=
  "\x7b\"set\":\x7b\"elements\":[".toList ++ text ++ "]\x7d\x7d".toList

/-- The text of a dict around a text. -/
def inDict (text : List Char) : List Char :=
  "\x7b\"dict\":\x7b\"pairs\":[[\x7b\"string\":\"a\"\x7d,".toList ++ text ++ "]]\x7d\x7d".toList

/-- A predicate without arguments as far in as it can be read: 125 levels. -/
def deepText : List UInt8 := Utf8.encode
  (Nat.repeat inDict 2 (Nat.repeat inSet 39 "\x7b\"predicate\":\x7b\"tag\":\"f\"\x7d\x7d".toList))

/-- A document that is read, and whose own text is refused: the predicate's lists go one level
deeper. -/
theorem not_reread : ¬ ∀ (bytes : List UInt8) (n : Node), unmarshal bytes = .ok n →
    ∃ m, unmarshal n.marshal = .ok m ∧ m.eqv n = true ∧ m.marshal = n.marshal := by
  intro h
  have hread : (unmarshal deepText).toOption.any
      (fun n => decide (Json.nestingLimit < n.nesting)) = true := by decide +kernel
  obtain ⟨n, hn, hdeep⟩ := (Option.any_eq_true _ _).1 hread
  obtain ⟨m, hm, _⟩ := h deepText n (toOption_eq_some.1 hn)
  rw [unmarshal_marshal, if_neg (Nat.not_le.2 (of_decide_eq_true hdeep))] at hm
  cases hm

end Node

end PeerRecords
