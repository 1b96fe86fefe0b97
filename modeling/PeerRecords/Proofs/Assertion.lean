import PeerRecords.Proofs.Merge.WellFormed
import PeerRecords.Proofs.Uniqueness

/-
  The assertion that a dict repeats no key.
  An update and a merge of two dicts put the entries of the result together unchecked, and a debug
  build asserts that no key is equal to one before it (`Dict.asserted`). `updateAsserting` and
  `mergeAsserting` are update and merge as a debug build runs them: the assertion is made of every
  dict, of named arguments and user's fields too, at every depth, and where it fails there is
  neither a document nor an error. On well-formed documents it never does: the two go as `update`
  and `merge` do (`goesAs_update`, `goesAs_merge`), whatever the resolver gives.
-/

namespace PeerRecords

open Node
open Entries (AreWellFormed Keyed areWellFormed_iff)

/-! ## The debug build -/

namespace Dict

/-- Whether no key is equal to one before it; the later key is asked. -/
def repeatsNoKey : List (Node × Node) → Bool
  | [] => true
  | p :: ps => ps.all (fun q => !q.1.eqv p.1) && repeatsNoKey ps

variable {m : Type → Type} [Monad m]

/-- The entries of a dict, asserted to repeat no key. -/
def asserted (ps : List (Node × Node)) : OptionT m (List (Node × Node)) :=
  if repeatsNoKey ps then pure ps else failure

end Dict

/-- `Entries.foldIn` with a step that may fail an assertion. -/
def Entries.foldInAsserting (key value : Node) (step : Node → OptionT (Except Error) Node) :
    List (Node × Node) → OptionT (Except Error) (List (Node × Node))
  | [] => pure [(key, value)]
  | p :: ps =>
    if p.1.eqv key then do
      let v ← step p.2
      pure ((p.1.withExpiry (Expiry.combine p.1.expiry key.expiry), v) :: ps)
    else do
      let qs ← Entries.foldInAsserting key value step ps
      pure (p :: qs)

namespace Node

mutual

/-- `update` in a debug build. -/
def updateAsserting : Node → Node → OptionT (Except Error) Node
  | .dict e t ps, .dict e' _ qs => do
    let rs ← updateEntriesAsserting ps qs
    pure (.dict (Expiry.combine e e') t rs)
  | .predicate e t as nt ps, .predicate e' _ bs _ qs => do
    let rs ← updateEntriesAsserting ps qs
    pure (.predicate (Expiry.combine e e') t (NodeSet.refreshAll as bs) nt rs)
  | .identity e i us, .identity e' i' us' => do
    let i ← Identity.update i i'
    let rs ← updateEntriesAsserting us us'
    pure (.identity (Expiry.combine e e') i rs)
  | .claim e a _ _ _ us, .claim e' a' b' s' g' us' =>
    if a = a' then do
      let rs ← updateEntriesAsserting us us'
      pure (.claim (Expiry.combine e e') a' b' s' g' rs)
    else OptionT.lift (.error (.kinds a.kind a'.kind))
  | .verify e _ us, .verify e' s' us' => do
    let rs ← updateEntriesAsserting us us'
    pure (.verify (Expiry.combine e e') s' rs)
  | .reachable e _ vt vs ut uvs us, .reachable e' m' vt' vs' ut' uvs' us' => do
    checkTags vt vt'
    checkTags ut ut'
    let ws := NodeSet.refreshAll vs vs'
    let rs ← updateEntriesAsserting us us'
    pure (.reachable (Expiry.combine e e') m' vt ws ut
      (outstanding ws (NodeSet.refreshAll uvs uvs')) rs)
  -- literals, sets and nodes that do not fit together: no dict is made
  | a, b => OptionT.lift (update a b)
termination_by structural _ n => n

/-- `updateEntries` in a debug build: when all is folded in, no key may be there twice. -/
def updateEntriesAsserting :
    List (Node × Node) → List (Node × Node) → OptionT (Except Error) (List (Node × Node))
  | ps, [] => Dict.asserted ps
  | ps, (k, v) :: qs => do
    let rs ← Entries.foldInAsserting k v (fun old => updateAsserting old v) ps
    updateEntriesAsserting rs qs
termination_by structural _ qs => qs

end

section

variable {m : Type → Type} [Monad m]

mutual

/-- `merge` in a debug build. -/
def mergeAsserting (resolve : Resolver m) : Node → Node → OptionT m Node
  | .dict e t ps, .dict e' t' qs =>
    if t = t' then do
      let rs ← mergeEntriesAsserting resolve ps qs
      pure (.dict (Expiry.combine e e') t (← Dict.asserted (rs ++ unmatched ps qs)))
    else OptionT.lift (merge resolve (.dict e t ps) (.dict e' t' qs))
  | .predicate e t as nt ps, .predicate e' t' bs nt' qs =>
    if t = t' then do
      let rs ← mergeEntriesAsserting resolve ps qs
      pure (.predicate (Expiry.combine e e') t (bs.foldl NodeSet.addTo as) nt
        (← Dict.asserted (rs ++ unmatched ps qs)))
    else OptionT.lift (merge resolve (.predicate e t as nt ps) (.predicate e' t' bs nt' qs))
  | .identity e i us, .identity e' i' us' =>
    if i' = i then do
      let rs ← mergeEntriesAsserting resolve us us'
      pure (.identity (Expiry.combine e e') i (← Dict.asserted (rs ++ unmatched us us')))
    else OptionT.lift (merge resolve (.identity e i us) (.identity e' i' us'))
  | .claim e a b s g us, .claim e' a' b' s' g' us' =>
    if a = a' ∧ b' = b ∧ s'.eqv s = true ∧ g' = g then do
      let rs ← mergeEntriesAsserting resolve us us'
      pure (.claim (Expiry.combine e e') a b s g (← Dict.asserted (rs ++ unmatched us us')))
    else OptionT.lift (merge resolve (.claim e a b s g us) (.claim e' a' b' s' g' us'))
  | .verify e s us, .verify e' s' us' =>
    if s'.eqv s then do
      let rs ← mergeEntriesAsserting resolve us us'
      pure (.verify (Expiry.combine e e') s (← Dict.asserted (rs ++ unmatched us us')))
    else OptionT.lift (merge resolve (.verify e s us) (.verify e' s' us'))
  | .reachable e c vt vs ut uvs us, .reachable e' c' vt' vs' ut' uvs' us' =>
    if c' = c then do
      let rs ← mergeEntriesAsserting resolve us us'
      let ws := vs'.foldl NodeSet.addTo vs
      pure (.reachable (Expiry.combine e e') c vt ws ut
        (outstanding ws (uvs'.foldl NodeSet.addTo uvs))
        (← Dict.asserted (rs ++ unmatched us us')))
    else OptionT.lift
      (merge resolve (.reachable e c vt vs ut uvs us) (.reachable e' c' vt' vs' ut' uvs' us'))
  -- literals, sets and nodes that do not fit together: no dict is made
  | a, b => OptionT.lift (merge resolve a b)
termination_by structural n => n

/-- `mergeEntries` in a debug build. -/
def mergeEntriesAsserting (resolve : Resolver m) :
    List (Node × Node) → List (Node × Node) → OptionT m (List (Node × Node))
  | [], _ => pure []
  | (k, v) :: ps, qs => do
    let w ← match Entries.lookup? (Dict.isKey k) qs with
      | some other => mergeAsserting resolve v other
      | none => pure v
    let rs ← mergeEntriesAsserting resolve ps qs
    pure ((k, w) :: rs)
termination_by structural ps => ps

end

end

end Node

/-! ## Computations without a failed assertion -/

section

variable {m : Type → Type} [Monad m] {α β : Type}

/-- The computation with assertions goes as the one without: no assertion fails. -/
def GoesAs (x : OptionT m α) (y : m α) : Prop := x.run = some <$> y

namespace GoesAs

variable [LawfulMonad m]

theorem pure (a : α) : GoesAs (Pure.pure a : OptionT m α) (Pure.pure a) := by
  rw [GoesAs, OptionT.run_pure, map_pure]

theorem lift (y : m α) : GoesAs (OptionT.lift y) y := by
  rw [GoesAs, OptionT.run_lift, map_eq_pure_bind]

/-- What comes after has to go as it should only for the values that the first can give. -/
theorem bind_of {p : α → Prop} {x : OptionT m α} {y : m α} {f : α → OptionT m β} {g : α → m β}
    (h : GoesAs x y) (hy : SatisfiesM p y) (hfg : ∀ a, p a → GoesAs (f a) (g a)) :
    GoesAs (x >>= f) (y >>= g) := by
  obtain ⟨z, rfl⟩ := hy
  rw [GoesAs, OptionT.run_bind, h]
  simp only [Option.elimM, Option.elim_some, map_bind, bind_map_left]
  exact congrArg (z >>= ·) (funext fun a => hfg a.1 a.2)

theorem bind {x : OptionT m α} {y : m α} {f : α → OptionT m β} {g : α → m β}
    (h : GoesAs x y) (hfg : ∀ a, GoesAs (f a) (g a)) : GoesAs (x >>= f) (y >>= g) :=
  h.bind_of .trivial fun a _ => hfg a

end GoesAs

end

/-! ## The assertion holds -/

namespace Dict

theorem repeatsNoKey_iff {ps : List (Node × Node)} :
    repeatsNoKey ps = true ↔ (ps.map (·.1)).Pairwise fun k l => l.eqv k = false := by
  induction ps with
  | nil => simp [repeatsNoKey]
  | cons p ps ih => simp [repeatsNoKey, ih]

/-- Well-formed keys that are pairwise unequal are so whichever of them is asked. -/
theorem repeatsNoKey_of_keyed {ps : List (Node × Node)} (h : Entries.Keyed ps) :
    repeatsNoKey ps = true := by
  have hwf := List.forall_mem_map.2 h.wellFormed
  refine repeatsNoKey_iff.2 ((areDistinct_iff.1 h.distinct).imp_of_mem fun hk hl hkl => ?_)
  rw [eqv_comm (hwf _ hl) (hwf _ hk)]
  exact hkl

theorem goesAs_asserted {m : Type → Type} [Monad m] [LawfulMonad m] {ps : List (Node × Node)}
    (h : Entries.Keyed ps) : GoesAs (asserted ps) (pure ps : m (List (Node × Node))) := by
  rw [asserted, if_pos (repeatsNoKey_of_keyed h)]
  exact .pure ps

end Dict

theorem Entries.goesAs_foldIn {key value : Node} {step : Node → OptionT (Except Error) Node}
    {step' : Node → Except Error Node} {ps : List (Node × Node)}
    (hstep : ∀ p ∈ ps, GoesAs (step p.2) (step' p.2)) :
    GoesAs (foldInAsserting key value step ps) (foldIn key value step' ps) := by
  induction ps with
  | nil => exact .pure _
  | cons p ps ih =>
    obtain ⟨hp, hps⟩ := List.forall_mem_cons.1 hstep
    rw [foldInAsserting, foldIn]
    split
    · exact hp.bind fun w => .pure _
    · exact (ih hps).bind fun qs => .pure _

/-- Folding an entry in keeps entries well-formed. -/
theorem Entries.AreWellFormed.foldIn {k v : Node} {ps rs : List (Node × Node)}
    (hps : AreWellFormed ps) (hk : k.WellFormed) (hv : v.WellFormed)
    (h : Entries.foldIn k v (fun old => update old v) ps = .ok rs) : AreWellFormed rs := by
  refine areWellFormed_iff.2 ⟨?_, ?_⟩
  · rw [map_fst_foldIn h]
    exact NodeSet.areDistinct_refresh k hps.distinct
  · exact forall_of_foldIn (fun e n hn => hn.withExpiry e) h (areWellFormed_iff.1 hps).2 hk hv
      fun old w hold hw => hold.update hv hw

namespace Node

theorem goesAs_updateEntries {ps qs : List (Node × Node)} (hps : AreWellFormed ps)
    (hqs : ∀ q ∈ qs, q.1.WellFormed ∧ q.2.WellFormed)
    (hvalues : ∀ q ∈ qs, ∀ old : Node, old.WellFormed →
      GoesAs (updateAsserting old q.2) (update old q.2)) :
    GoesAs (updateEntriesAsserting ps qs) (updateEntries ps qs) := by
  induction qs generalizing ps with
  | nil => exact Dict.goesAs_asserted hps.toKeyed
  | cons q qs ih =>
    obtain ⟨k, v⟩ := q
    obtain ⟨⟨hk, hv⟩, hqs⟩ := List.forall_mem_cons.1 hqs
    obtain ⟨hstep, hvalues⟩ := List.forall_mem_cons.1 hvalues
    have hfold : GoesAs (Entries.foldInAsserting k v (fun old => updateAsserting old v) ps)
        (Entries.foldIn k v (fun old => update old v) ps) :=
      Entries.goesAs_foldIn fun p hp => hstep p.2 (hps.values p hp)
    rw [updateEntriesAsserting, updateEntries]
    exact hfold.bind_of (SatisfiesM_Except_eq.2 fun _ h => h) fun rs hrs =>
      ih (hps.foldIn hk hv hrs) hqs hvalues

/-- On well-formed documents no assertion of an update fails. -/
theorem goesAs_update {a b : Node} (ha : a.WellFormed) (hb : b.WellFormed) :
    GoesAs (updateAsserting a b) (update a b) := by
  induction b using induct_children generalizing a with
  | step b ih =>
    have hentries := goesAs_updateEntries ha.fields
      (fun q hq => ⟨hb.fields.wellFormed q hq, hb.fields.values q hq⟩)
      fun q hq old hold => ih q.2 (snd_mem_children hq) hold (hb.child (snd_mem_children hq))
    -- dicts, predicates, identities, claims, claims that failed, addresses, and all the others
    unfold updateAsserting
    split
    · exact hentries.bind fun rs => .pure _
    · exact hentries.bind fun rs => .pure _
    · exact (GoesAs.lift _).bind fun i => hentries.bind fun rs => .pure _
    · rw [update]
      split
      · exact hentries.bind fun rs => .pure _
      · exact .lift _
    · exact hentries.bind fun rs => .pure _
    · exact (GoesAs.lift _).bind fun _ => (GoesAs.lift _).bind fun _ =>
        hentries.bind fun rs => .pure _
    · exact .lift _

/-- A dict that has a key twice does not pass. -/
example : (updateAsserting
    (.dict none "" [(ofString "k", ofString "a"), (ofString "k", ofString "b")])
    (.dict none "" [])).run = .ok none := rfl

section

variable {m : Type → Type} [Monad m] [LawfulMonad m] {resolve : Resolver m}

theorem goesAs_mergeEntries {ps qs : List (Node × Node)}
    (hmerge : ∀ p ∈ ps, ∀ q ∈ qs, GoesAs (mergeAsserting resolve p.2 q.2) (merge resolve p.2 q.2)) :
    GoesAs (mergeEntriesAsserting resolve ps qs) (mergeEntries resolve ps qs) := by
  induction ps with
  | nil => exact .pure []
  | cons p ps ih =>
    obtain ⟨k, v⟩ := p
    obtain ⟨hv, hps⟩ := List.forall_mem_cons.1 hmerge
    rw [mergeEntriesAsserting, mergeEntries]
    cases hpartner : Entries.lookup? (Dict.isKey k) qs with
    | none => exact (GoesAs.pure v).bind fun w => (ih hps).bind fun rs => .pure _
    | some other =>
      obtain ⟨q, hq, _, rfl⟩ := Entries.mem_of_at? hpartner
      exact (hv q hq).bind fun w => (ih hps).bind fun rs => .pure _

/-- What is made of merged entries, asserted to repeat no key. -/
theorem goesAs_of_mergeEntries {ps qs : List (Node × Node)} (hps : Keyed ps) (hqs : Keyed qs)
    (hmerge : ∀ p ∈ ps, ∀ q ∈ qs, GoesAs (mergeAsserting resolve p.2 q.2) (merge resolve p.2 q.2))
    (build : List (Node × Node) → Node) :
    GoesAs (mergeEntriesAsserting resolve ps qs >>= fun rs =>
        Dict.asserted (rs ++ unmatched ps qs) >>= fun us => pure (build us))
      (mergeEntries resolve ps qs >>= fun rs => pure (build (rs ++ unmatched ps qs))) := by
  have hkeys : SatisfiesM (fun rs => rs.map (·.1) = ps.map (·.1)) (mergeEntries resolve ps qs) :=
    (satisfiesM_mergeEntries (P := fun _ => True) (fun _ _ => trivial)
      fun _ _ _ _ => .trivial).imp And.left
  refine (goesAs_mergeEntries hmerge).bind_of hkeys fun rs hrs => ?_
  rw [← pure_bind (rs ++ unmatched ps qs) fun us => pure (build us)]
  exact (Dict.goesAs_asserted (hps.append_unmatched hqs hrs)).bind fun us => .pure _

/-- On well-formed documents no assertion of a merge fails, whatever the resolver gives. -/
theorem goesAs_merge {a b : Node} (ha : a.WellFormed) (hb : b.WellFormed) :
    GoesAs (mergeAsserting resolve a b) (merge resolve a b) := by
  induction a using induct_children generalizing b with
  | step a ih =>
    have hvalues : ∀ p ∈ a.fields, ∀ q ∈ b.fields,
        GoesAs (mergeAsserting resolve p.2 q.2) (merge resolve p.2 q.2) := fun p hp q hq =>
      ih p.2 (snd_mem_children hp) (ha.child (snd_mem_children hp)) (hb.child (snd_mem_children hq))
    have hentries := goesAs_of_mergeEntries ha.fields.toKeyed hb.fields.toKeyed hvalues
    -- the same cases as in an update
    unfold mergeAsserting
    split
    · split
      · rename_i h
        rw [merge, if_pos h]
        exact hentries _
      · exact .lift _
    · split
      · rename_i h
        rw [merge, if_pos h]
        exact hentries _
      · exact .lift _
    · split
      · rename_i h
        rw [merge, if_pos (by rw [h]), if_pos h]
        exact hentries _
      · exact .lift _
    · split
      · rename_i h
        rw [merge, if_pos h.1, if_pos h.2]
        exact hentries _
      · exact .lift _
    · split
      · rename_i h
        rw [merge, if_pos h]
        exact hentries _
      · exact .lift _
    · split
      · rename_i h
        rw [merge, if_pos h]
        exact hentries _
      · exact .lift _
    · exact .lift _

end

end Node

end PeerRecords
