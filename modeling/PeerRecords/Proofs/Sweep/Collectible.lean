import PeerRecords.Proofs.Sweep

/-
  What a sweep takes out.
  `isCollectible` says of a node by itself whether it is to go, `trimmed` is the document without
  the collectible parts, and `places` lists the nodes that a sweep comes to, each with its way from
  the top (`reached_iff_mem_survey`). A sweep leaves nothing of a collectible node and the trimmed
  document of any other, and counts the collectible nodes among its places (`sweep_eq`). Every other
  node is left with its way, its tag and its expiration, in the same order
  (`outline_places_trimmed`). So a node that is no container is left just if it has not expired
  (`sweep_takes_collectible`).
-/

namespace PeerRecords.Node

variable {now : Instant}

/-! ## Collectible nodes -/

/-- Whether a container of so many parts goes when all of them go: it has expired itself, or it has
no expiration and a part to lose. -/
def goesWithParts (e : Expiry) (now : Instant) (count : Nat) : Bool :=
  match e with
  | some t => decide (t ≤ now)
  | none => decide (0 < count)

mutual

/-- Whether a node is to be collected: a dict goes by its values and a set by its elements, any
other node by its own expiration. -/
def isCollectible (now : Instant) : Node → Bool
  | .dict e _ ps => areCollectibleEntries now ps && goesWithParts e now ps.length
  | .set e _ es => areCollectible now es && goesWithParts e now es.length
  | n => Expiry.isExpired n.expiry now
termination_by structural n => n

/-- Whether every node of a list is to be collected. -/
def areCollectible (now : Instant) : List Node → Bool
  | [] => true
  | n :: ns => isCollectible now n && areCollectible now ns
termination_by structural ns => ns

/-- Whether every value of a list of entries is to be collected. -/
def areCollectibleEntries (now : Instant) : List (Node × Node) → Bool
  | [] => true
  | (_, v) :: ps => isCollectible now v && areCollectibleEntries now ps
termination_by structural ps => ps

end

mutual

/-- The document without its collectible parts, at every depth that a sweep comes to. -/
def trimmed (now : Instant) : Node → Node
  | .dict e t ps => .dict e t (trimmedEntries now ps)
  | .set e t es => .set e t (trimmedAll now es)
  | n => n
termination_by structural n => n

/-- The nodes of a list that are not collectible, trimmed. -/
def trimmedAll (now : Instant) : List Node → List Node
  | [] => []
  | n :: ns => if isCollectible now n then trimmedAll now ns else trimmed now n :: trimmedAll now ns
termination_by structural ns => ns

/-- The entries whose values are not collectible, with these trimmed. -/
def trimmedEntries (now : Instant) : List (Node × Node) → List (Node × Node)
  | [] => []
  | (k, v) :: ps =>
    if isCollectible now v then trimmedEntries now ps
    else (k, trimmed now v) :: trimmedEntries now ps
termination_by structural ps => ps

end

theorem areCollectible_eq_all (es : List Node) :
    areCollectible now es = es.all (isCollectible now) := by
  induction es with
  | nil => rfl
  | cons n es ih => rw [areCollectible, List.all_cons, ih]

theorem areCollectibleEntries_eq_all (ps : List (Node × Node)) :
    areCollectibleEntries now ps = ps.all fun p => p.2.isCollectible now := by
  induction ps with
  | nil => rfl
  | cons p ps ih => obtain ⟨k, v⟩ := p; rw [areCollectibleEntries, List.all_cons, ih]

theorem trimmedAll_eq (es : List Node) :
    trimmedAll now es = (es.filter fun n => !n.isCollectible now).map (trimmed now) := by
  induction es with
  | nil => rfl
  | cons n es ih => rw [trimmedAll, ih]; cases h : n.isCollectible now <;> simp [h]

theorem trimmedEntries_eq (ps : List (Node × Node)) : trimmedEntries now ps =
    (ps.filter fun p => !p.2.isCollectible now).map fun p => (p.1, p.2.trimmed now) := by
  induction ps with
  | nil => rfl
  | cons p ps ih =>
    obtain ⟨k, v⟩ := p
    rw [trimmedEntries, ih]
    cases h : v.isCollectible now <;> simp [h]

/-! ## Where a sweep comes to -/

/-- A step into a document, from a dict to the value at a key or from a set to an element. -/
inductive Step where
  | value (expiry : Expiry) (tag : String) (key : Node)
  | element (expiry : Expiry) (tag : String)

/-- The parts of a node, each with the step to it. -/
def branches : Node → List (Step × Node)
  | .dict e t ps => ps.map fun p => (.value e t p.1, p.2)
  | .set e t es => es.map fun n => (.element e t, n)
  | _ => []

/-- A node with the way to it. -/
structure Place where
  way : List Step
  node : Node

/-- The place as it is seen from one step higher. -/
def Place.after (s : Step) (x : Place) : Place := ⟨s :: x.way, x.node⟩

mutual

/-- The values of dicts and elements of sets that a sweep of the node comes to, in order. -/
def places : Node → List Place
  | .dict e t ps => placesEntries e t ps
  | .set e t es => placesAll e t es
  | _ => []
termination_by structural n => n

/-- The places at and below the elements of a set. -/
def placesAll (e : Expiry) (t : String) : List Node → List Place
  | [] => []
  | n :: ns => ⟨[.element e t], n⟩ :: ((places n).map (.after (.element e t)) ++ placesAll e t ns)
termination_by structural ns => ns

/-- The places at and below the values of a dict. -/
def placesEntries (e : Expiry) (t : String) : List (Node × Node) → List Place
  | [] => []
  | (k, v) :: ps =>
    ⟨[.value e t k], v⟩ :: ((places v).map (.after (.value e t k)) ++ placesEntries e t ps)
termination_by structural ps => ps

end

/-- The places at and below a part. -/
def placesAt (b : Step × Node) : List Place := ⟨[b.1], b.2⟩ :: b.2.places.map (.after b.1)

theorem placesAll_cons (e : Expiry) (t : String) (n : Node) (ns : List Node) :
    placesAll e t (n :: ns) = placesAt (.element e t, n) ++ placesAll e t ns := rfl

theorem placesEntries_cons (e : Expiry) (t : String) (p : Node × Node) (ps : List (Node × Node)) :
    placesEntries e t (p :: ps) = placesAt (.value e t p.1, p.2) ++ placesEntries e t ps := rfl

theorem parts_eq_map (n : Node) : n.parts = n.branches.map (·.2) := by
  cases n <;> simp [parts, branches, Function.comp_def]

theorem mem_parts_of_mem_branches {n : Node} {b : Step × Node} (hb : b ∈ n.branches) :
    b.2 ∈ n.parts := by
  rw [parts_eq_map]
  exact List.mem_map_of_mem hb

theorem places_eq_flatMap (n : Node) : n.places = n.branches.flatMap placesAt := by
  cases n with
  | dict e t ps =>
    rw [places, branches]
    induction ps with
    | nil => rfl
    | cons p ps ih => rw [placesEntries_cons, ih, List.map_cons, List.flatMap_cons]
  | set e t es =>
    rw [places, branches]
    induction es with
    | nil => rfl
    | cons n es ih => rw [placesAll_cons, ih, List.map_cons, List.flatMap_cons]
  | _ => rfl

theorem branches_trimmed (n : Node) : (n.trimmed now).branches =
    (n.branches.filter fun b => !b.2.isCollectible now).map fun b => (b.1, b.2.trimmed now) := by
  cases n with
  | dict e t ps =>
    rw [trimmed, branches, trimmedEntries_eq, branches, List.filter_map, List.map_map, List.map_map]
    rfl
  | set e t es =>
    rw [trimmed, branches, trimmedAll_eq, branches, List.filter_map, List.map_map, List.map_map]
    rfl
  | _ => rfl

theorem isCollectible_of_not_container {n : Node} (h : n.isContainer = false) :
    n.isCollectible now = n.expiry.isExpired now := by
  cases n with
  | dict e t ps => cases h
  | set e t es => cases h
  | _ => rfl

theorem isCollectible_of_container {n : Node} (h : n.isContainer = true) : n.isCollectible now =
    (n.parts.all (isCollectible now) && goesWithParts n.expiry now n.parts.length) := by
  cases n with
  | dict e t ps =>
    rw [isCollectible, areCollectibleEntries_eq_all, parts, List.all_map, List.length_map]
    rfl
  | set e t es =>
    rw [isCollectible, areCollectible_eq_all]
    rfl
  | _ => cases h

theorem isCollectible_of_mem_parts {n c : Node} (h : n.isCollectible now = true)
    (hc : c ∈ n.parts) : c.isCollectible now = true := by
  have hn : n.isContainer = true := by
    cases n with
    | dict e t ps => rfl
    | set e t es => rfl
    | _ => exact absurd hc List.not_mem_nil
  rw [isCollectible_of_container hn, Bool.and_eq_true, List.all_eq_true] at h
  exact h.1 c hc

theorem mem_placesAt {b : Step × Node} {x : Place} :
    x ∈ placesAt b ↔ x = ⟨[b.1], b.2⟩ ∨ ∃ y ∈ b.2.places, y.after b.1 = x := by
  rw [placesAt, List.mem_cons, List.mem_map]

/-- All that a sweep comes to inside a collectible node is collectible. -/
theorem isCollectible_of_mem_places {n : Node} {x : Place} (h : n.isCollectible now = true)
    (hx : x ∈ n.places) : x.node.isCollectible now = true := by
  induction n using induct_children generalizing x with
  | step n ih =>
    rw [places_eq_flatMap, List.mem_flatMap] at hx
    obtain ⟨b, hb, hx⟩ := hx
    have hpart := mem_parts_of_mem_branches hb
    have hgoes := isCollectible_of_mem_parts h hpart
    obtain rfl | ⟨y, hy, rfl⟩ := mem_placesAt.1 hx
    · exact hgoes
    · have hy' : y.node.isCollectible now = true := ih b.2 (parts_subset_children hpart) hgoes hy
      exact hy'

/-! ## The sweep takes the collectible nodes -/

/-- A node without what a sweep goes on to: a dict or set with no parts, any other node as it is. -/
def bare : Node → Node
  | .dict e t _ => .dict e t []
  | .set e t _ => .set e t []
  | n => n

/-- What is seen of a place when its parts are disregarded. -/
def Place.outline (x : Place) : Place := ⟨x.way, x.node.bare⟩

theorem bare_of_not_container {n : Node} (h : n.isContainer = false) : n.bare = n := by
  cases n with
  | dict e t ps => cases h
  | set e t es => cases h
  | _ => rfl

theorem bare_trimmed (n : Node) : (n.trimmed now).bare = n.bare := by
  cases n <;> rfl

/-- The places that a sweep keeps. -/
def kept (now : Instant) (xs : List Place) : List Place :=
  xs.filter fun x => !x.node.isCollectible now

theorem kept_placesAt (b : Step × Node) : kept now (placesAt b) =
    if b.2.isCollectible now then []
    else ⟨[b.1], b.2⟩ :: (kept now b.2.places).map (.after b.1) := by
  have hrest : kept now (b.2.places.map (.after b.1)) =
      (kept now b.2.places).map (.after b.1) := List.filter_map
  split
  next h =>
    refine List.filter_eq_nil_iff.2 fun x hx => ?_
    obtain rfl | ⟨y, hy, rfl⟩ := mem_placesAt.1 hx
    · simp [h]
    · simp [Place.after, isCollectible_of_mem_places h hy]
  next h =>
    rw [placesAt, kept, List.filter_cons_of_pos (by simpa using h)]
    exact congrArg _ hrest

/-- What is left of a document has the places that are kept, in their order. -/
theorem outline_places_trimmed (now : Instant) (n : Node) :
    (n.trimmed now).places.map Place.outline = (kept now n.places).map Place.outline := by
  induction n using induct_children with
  | step n ih =>
    have hparts : ∀ b ∈ n.branches, (b.2.trimmed now).places.map Place.outline =
        (kept now b.2.places).map Place.outline := fun b hb =>
      ih b.2 (parts_subset_children (mem_parts_of_mem_branches hb))
    rw [places_eq_flatMap, branches_trimmed, places_eq_flatMap n]
    generalize n.branches = bs at hparts
    induction bs with
    | nil => rfl
    | cons b bs ihbs =>
      have hrest := ihbs fun c hc => hparts c (List.mem_cons_of_mem _ hc)
      rw [List.flatMap_cons, kept, List.filter_append, List.map_append, ← kept, ← kept, ← hrest,
        kept_placesAt]
      cases hb : b.2.isCollectible now with
      | true => rw [List.filter_cons_of_neg (by simp [hb])]; rfl
      | false =>
        have hhead : (placesAt (b.1, b.2.trimmed now)).map Place.outline =
            Place.outline ⟨[b.1], b.2⟩ ::
              ((kept now b.2.places).map (.after b.1)).map Place.outline := by
          rw [placesAt, List.map_cons, Place.outline, bare_trimmed, List.map_map, List.map_map]
          have := congrArg (List.map (Place.after b.1)) (hparts b List.mem_cons_self)
          rw [List.map_map, List.map_map] at this
          exact congrArg _ this
        rw [List.filter_cons_of_pos (by simp [hb]), List.map_cons, List.flatMap_cons,
          List.map_append, hhead]
        rfl

/-- How many of the places go. -/
def countCollectible (now : Instant) (xs : List Place) : Nat :=
  xs.countP fun x => x.node.isCollectible now

theorem countCollectible_append (xs ys : List Place) : countCollectible now (xs ++ ys) =
    countCollectible now xs + countCollectible now ys := List.countP_append

theorem countCollectible_placesAt (b : Step × Node) : countCollectible now (placesAt b) =
    countCollectible now b.2.places + if b.2.isCollectible now then 1 else 0 := by
  have hrest : countCollectible now (b.2.places.map (.after b.1)) =
      countCollectible now b.2.places := List.countP_map
  rw [placesAt, countCollectible, List.countP_cons]
  exact congrArg (· + _) hrest

theorem isSpent_eq (e : Expiry) (now : Instant) (before after : Nat) :
    isSpent e now before after = (after == 0 && goesWithParts e now before) := by
  cases after with
  | zero => cases e <;> rfl
  | succ k => rfl

/-- Nothing is left of a list just if all of it goes. -/
theorem length_filter_not_beq_zero {α : Type} (goes : α → Bool) (xs : List α) :
    ((xs.filter fun x => !goes x).length == 0) = xs.all goes := by
  rw [Bool.eq_iff_iff, beq_iff_eq, List.length_eq_zero_iff, List.filter_eq_nil_iff,
    List.all_eq_true]
  simp

/-- What `sweep_eq` says of one node. -/
def SweepsByRule (now : Instant) (n : Node) : Prop :=
  n.sweep now =
    (if n.isCollectible now then none else some (n.trimmed now), countCollectible now n.places)

theorem sweepAll_eq {es : List Node} (e : Expiry) (t : String)
    (hes : ∀ n ∈ es, SweepsByRule now n) :
    sweepAll now es = (trimmedAll now es, countCollectible now (placesAll e t es)) := by
  induction es with
  | nil => rfl
  | cons n es ih =>
    have hn : SweepsByRule now n := hes n List.mem_cons_self
    rw [sweepAll, hn, ih fun x hx => hes x (List.mem_cons_of_mem _ hx), placesAll_cons,
      countCollectible_append, countCollectible_placesAt, trimmedAll]
    cases n.isCollectible now <;> rfl

theorem sweepEntries_eq {ps : List (Node × Node)} (e : Expiry) (t : String)
    (hps : ∀ p ∈ ps, SweepsByRule now p.2) :
    sweepEntries now ps = (trimmedEntries now ps, countCollectible now (placesEntries e t ps)) := by
  induction ps with
  | nil => rfl
  | cons p ps ih =>
    have hv : SweepsByRule now p.2 := hps p List.mem_cons_self
    rw [sweepEntries, hv, ih fun x hx => hps x (List.mem_cons_of_mem _ hx), placesEntries_cons,
      countCollectible_append, countCollectible_placesAt, trimmedEntries]
    cases p.2.isCollectible now <;> rfl

/-- A sweep leaves the trimmed document of a node that is not collectible, nothing of any other,
and counts the collectible nodes that it comes to. -/
theorem sweep_eq (now : Instant) (n : Node) : n.sweep now =
    (if n.isCollectible now then none else some (n.trimmed now),
      countCollectible now n.places) := by
  induction n using induct_children with
  | step n ih =>
    cases n with
    | dict e t ps =>
      have hnone : ((trimmedEntries now ps).length == 0) = areCollectibleEntries now ps := by
        rw [trimmedEntries_eq, List.length_map, length_filter_not_beq_zero,
          areCollectibleEntries_eq_all]
      rw [sweep, sweepEntries_eq e t fun p hp => ih p.2 (snd_mem_entryNodes hp), isCollectible,
        ← hnone, ← isSpent_eq]
      rfl
    | set e t es =>
      have hnone : ((trimmedAll now es).length == 0) = areCollectible now es := by
        rw [trimmedAll_eq, List.length_map, length_filter_not_beq_zero, areCollectible_eq_all]
      have hes : ∀ c ∈ es, SweepsByRule now c := ih
      rw [sweep, sweepAll_eq e t hes, isCollectible, ← hnone, ← isSpent_eq]
      rfl
    | _ => rfl

theorem sweep_fst_eq_none_iff {n : Node} :
    (n.sweep now).1 = none ↔ n.isCollectible now = true := by
  rw [sweep_eq]
  cases n.isCollectible now <;> simp

theorem sweep_fst_eq_some_iff {n m : Node} :
    (n.sweep now).1 = some m ↔ n.isCollectible now = false ∧ m = n.trimmed now := by
  rw [sweep_eq]
  cases n.isCollectible now <;> simp [eq_comm]

/-- A node and all that a sweep of it comes to, each with its way from the node. -/
def survey (n : Node) : List Place := ⟨[], n⟩ :: n.places

/-- The survey lists what a sweep comes to. -/
theorem reached_iff_mem_survey {v n : Node} : v.Reached n ↔ ∃ w, ⟨w, v⟩ ∈ n.survey := by
  induction n using induct_children with
  | step n ih =>
    rw [reached_iff]
    constructor
    · rintro (rfl | ⟨c, hc, hv⟩)
      · exact ⟨[], List.mem_cons_self⟩
      · obtain ⟨w, hw⟩ := (ih c (parts_subset_children hc)).1 hv
        rw [parts_eq_map] at hc
        obtain ⟨b, hb, rfl⟩ := List.mem_map.1 hc
        refine ⟨b.1 :: w, List.mem_cons_of_mem _ ?_⟩
        rw [places_eq_flatMap, List.mem_flatMap]
        refine ⟨b, hb, mem_placesAt.2 ?_⟩
        obtain hw | hw := List.mem_cons.1 hw
        · cases hw
          exact .inl rfl
        · exact .inr ⟨_, hw, rfl⟩
    · rintro ⟨w, hw⟩
      obtain hw | hw := List.mem_cons.1 hw
      · cases hw
        exact .inl rfl
      · rw [places_eq_flatMap, List.mem_flatMap] at hw
        obtain ⟨b, hb, hw⟩ := hw
        have hpart := mem_parts_of_mem_branches hb
        refine .inr ⟨b.2, hpart, (ih b.2 (parts_subset_children hpart)).2 ?_⟩
        obtain hw | ⟨y, hy, hw⟩ := mem_placesAt.1 hw
        · cases hw
          exact ⟨[], List.mem_cons_self⟩
        · cases hw
          exact ⟨y.way, List.mem_cons_of_mem _ hy⟩

theorem kept_survey {n : Node} (h : n.isCollectible now = false) :
    kept now n.survey = ⟨[], n⟩ :: kept now n.places := List.filter_cons_of_pos (by simp [h])

theorem outline_survey_trimmed {n : Node} (h : n.isCollectible now = false) :
    (n.trimmed now).survey.map Place.outline = (kept now n.survey).map Place.outline := by
  have hroot : Place.outline ⟨[], n.trimmed now⟩ = Place.outline ⟨[], n⟩ :=
    congrArg (Place.mk []) (bare_trimmed n)
  rw [kept_survey h, survey, List.map_cons, List.map_cons, hroot, outline_places_trimmed]

theorem isCollectible_of_mem_survey {n : Node} {x : Place} (h : n.isCollectible now = true)
    (hx : x ∈ n.survey) : x.node.isCollectible now = true := by
  obtain rfl | hx := List.mem_cons.1 hx
  · exact h
  · exact isCollectible_of_mem_places h hx

/-- A node that is no container is in a list of places just if it is among their outlines. -/
theorem mem_outlines_iff {w : List Step} {v : Node} (hv : v.isContainer = false)
    (xs : List Place) : ⟨w, v⟩ ∈ xs.map Place.outline ↔ ⟨w, v⟩ ∈ xs := by
  rw [List.mem_map]
  constructor
  · rintro ⟨⟨w', n⟩, hx, hout⟩
    obtain ⟨rfl, rfl⟩ := Place.mk.inj hout
    have hn : n.isContainer = false := by cases n <;> exact hv
    rwa [bare_of_not_container hn]
  · intro hx
    exact ⟨_, hx, congrArg (Place.mk w) (bare_of_not_container hv)⟩

/-- A sweep removes exactly the collectible nodes. Nothing is left of a document just if it is
collectible itself. Of any other its trimmed document is left, in which every node that is not
collectible has its way, with the keys, the tags and the expirations on it, its own tag and
expiration, and its place in the order. So a node that is no container is left where it was just
if it has not expired, whatever it stands in. -/
theorem sweep_takes_collectible (now : Instant) (n : Node) :
    ((n.sweep now).1 = none ↔ n.isCollectible now = true) ∧
    (∀ m, (n.sweep now).1 = some m → m = n.trimmed now ∧
      m.survey.map Place.outline =
        (n.survey.filter fun x => !x.node.isCollectible now).map Place.outline) ∧
    ∀ w v, v.isContainer = false →
      ((∃ m, (n.sweep now).1 = some m ∧ ⟨w, v⟩ ∈ m.survey) ↔
        ⟨w, v⟩ ∈ n.survey ∧ v.expiry.isExpired now = false) := by
  refine ⟨sweep_fst_eq_none_iff, fun m hm => ?_, fun w v hv => ?_⟩
  · obtain ⟨hgoes, rfl⟩ := sweep_fst_eq_some_iff.1 hm
    exact ⟨rfl, outline_survey_trimmed hgoes⟩
  · have hkept : (⟨w, v⟩ : Place) ∈ kept now n.survey ↔
        ⟨w, v⟩ ∈ n.survey ∧ v.expiry.isExpired now = false := by
      rw [kept, List.mem_filter, isCollectible_of_not_container hv, Bool.not_eq_true']
    rw [← hkept]
    constructor
    · rintro ⟨m, hm, hmem⟩
      obtain ⟨hgoes, rfl⟩ := sweep_fst_eq_some_iff.1 hm
      rwa [← mem_outlines_iff hv, ← outline_survey_trimmed hgoes, mem_outlines_iff hv]
    · intro hmem
      obtain ⟨hin, hstays⟩ := List.mem_filter.1 hmem
      have hgoes : n.isCollectible now = false := by
        cases h : n.isCollectible now with
        | false => rfl
        | true =>
          rw [isCollectible_of_mem_survey h hin] at hstays
          cases hstays
      refine ⟨_, sweep_fst_eq_some_iff.2 ⟨hgoes, rfl⟩, ?_⟩
      rwa [← mem_outlines_iff hv, outline_survey_trimmed hgoes, mem_outlines_iff hv]

/-- At 5, a set whose own time is over is kept by one element without expiration; beside it go an
expired literal and a set without expiration that loses its last element. -/
theorem sweep_takes_collectible_mixed :
    let live := leaf none (.string "live")
    let gone := leaf (some 3) (.string "gone")
    let key (s : String) := leaf none (.string s)
    let before := dict none "d" [(key "a", gone), (key "b", set (some 4) "s" [gone, live]),
      (key "c", set none "s" [gone]), (key "e", set none "s" [])]
    let after := dict none "d" [(key "b", set (some 4) "s" [live]), (key "e", set none "s" [])]
    after = before.trimmed 5 ∧
      ∃ m, (before.sweep 5).1 = some m ∧
        ⟨[.value none "d" (key "b"), .element (some 4) "s"], live⟩ ∈ m.survey := by
  intro live gone key before after
  have h := sweep_takes_collectible 5 before
  refine ⟨(h.2.1 after rfl).1, (h.2.2 _ live rfl).2 ⟨?_, rfl⟩⟩
  simp [survey, before, places, placesEntries, placesAll, Place.after]

end PeerRecords.Node
