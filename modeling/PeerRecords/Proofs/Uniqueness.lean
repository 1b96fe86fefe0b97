import PeerRecords.Proofs.Assembly
import PeerRecords.Proofs.Sweep
import PeerRecords.Proofs.Update
import PeerRecords.Proofs.Store.Runs
import Mathlib.Data.List.Induction

/-
  Keys and elements without repeats.
  Assembly and updates make well-formed documents of well-formed ones (`wellFormed_of_yields`,
  `WellFormed.update`). No operation makes two keys equal (`distinctKeys_run`). But a sweep takes
  parts out of the elements of a set, and two of them may be equal afterwards; so it leaves a
  well-formed document just if the survivors of every set it reaches are told apart
  (`wellFormed_sweep_iff`). The main statement, at the end, is about every run of writes and sweeps.
-/

namespace PeerRecords

open Node Grammar

namespace Node

/-- What is left of the elements of each set that a sweep reaches is pairwise unequal. -/
def SweepsApart (now : Instant) (n : Node) : Prop :=
  ∀ e t es, (set e t es).Reached n → areDistinct (sweepAll now es).1 = true

/-- The elements of a set are no dicts and no sets, but for empty ones. -/
def IsFlat : Node → Prop
  | .set _ _ es => ∀ n ∈ es, n.parts = []
  | _ => True

theorem isLocallyWellFormed_withExpiry (e : Expiry) (n : Node) :
    (n.withExpiry e).isLocallyWellFormed = n.isLocallyWellFormed := by
  cases n <;> rfl

theorem hasDistinctKeys_withExpiry (e : Expiry) (n : Node) (h : n.HasDistinctKeys) :
    (n.withExpiry e).HasDistinctKeys := by
  cases n <;> exact h

theorem WellFormed.withExpiry (e : Expiry) {n : Node} (h : n.WellFormed) :
    (n.withExpiry e).WellFormed := by
  refine wellFormed_iff.2 ((wellFormed_iff.1 h).withExpiry (fun e n hn => ?_) e)
  rw [isLocallyWellFormed_withExpiry]
  exact hn

theorem WellFormed.of_mem_keys {n : Node} (h : n.WellFormed) {k : Node} (hk : k ∈ n.keys) :
    k.WellFormed := by
  rw [keys_eq_map] at hk
  obtain ⟨p, hp, rfl⟩ := List.mem_map.1 hk
  exact h.child (fst_mem_children hp)

/-! ## Assembly and updates -/

theorem areDistinct_keys_updateEntries {ps qs rs : List (Node × Node)}
    (hrs : updateEntries ps qs = .ok rs) (h : areDistinct (ps.map (·.1)) = true) :
    areDistinct (rs.map (·.1)) = true := by
  rw [map_fst_updateEntries hrs]
  exact NodeSet.areDistinct_refreshAll _ h

/-- An update keeps apart what a node holds. -/
theorem Updated.isLocallyWellFormed {a b r : Node} (h : Updated a b r)
    (ha : a.isLocallyWellFormed = true) : r.isLocallyWellFormed = true := by
  cases h with
  | leaf e e' h => rfl
  | set e e' t es fs => exact NodeSet.areDistinct_refreshAll _ ha
  | reachable e e' m m' vt ut vs vs' uvs uvs' h =>
    simp only [Node.isLocallyWellFormed, Bool.and_eq_true] at ha ⊢
    exact ⟨⟨NodeSet.areDistinct_refreshAll _ ha.1.1,
      areDistinct_sublist List.filter_sublist (NodeSet.areDistinct_refreshAll _ ha.1.2)⟩,
      areDistinct_keys_updateEntries h ha.2⟩
  | dict e e' t t' h => exact areDistinct_keys_updateEntries h ha
  | predicate e e' t t' nt nt' as bs h => exact areDistinct_keys_updateEntries h ha
  | identity e e' hi h => exact areDistinct_keys_updateEntries h ha
  | claim e e' x p p' s s' g g' h => exact areDistinct_keys_updateEntries h ha
  | verify e e' s s' h => exact areDistinct_keys_updateEntries h ha

theorem WellFormed.update {a b r : Node} (ha : a.WellFormed) (hb : b.WellFormed)
    (h : a.update b = .ok r) : r.WellFormed := by
  rw [wellFormed_iff] at ha hb ⊢
  refine everywhere_update (fun e n hn => ?_) (fun hr hx _ => hr.isLocallyWellFormed hx) ha hb h
  rw [isLocallyWellFormed_withExpiry]
  exact hn

/-- An update keeps the keys of a node apart, whatever its elements. -/
theorem Updated.hasDistinctKeys {a b r : Node} (h : Updated a b r) (ha : a.HasDistinctKeys) :
    r.HasDistinctKeys := by
  cases h with
  | leaf e e' h => rfl
  | set e e' t es fs => rfl
  | dict e e' t t' h => exact areDistinct_keys_updateEntries h ha
  | predicate e e' t t' nt nt' as bs h => exact areDistinct_keys_updateEntries h ha
  | identity e e' hi h => exact areDistinct_keys_updateEntries h ha
  | claim e e' x p p' s s' g g' h => exact areDistinct_keys_updateEntries h ha
  | verify e e' s s' h => exact areDistinct_keys_updateEntries h ha
  | reachable e e' m m' vt ut vs vs' uvs uvs' h => exact areDistinct_keys_updateEntries h ha

theorem Updated.isFlat {a b r : Node} (h : Updated a b r) (ha : a.IsFlat)
    (hb : b.IsFlat) : r.IsFlat := by
  cases h with
  | set e e' t es fs =>
    exact NodeSet.forall_mem_refreshAll
      (fun e n hn => (parts_withExpiry e n).trans hn) ha hb
  | _ => trivial

end Node

namespace Grammar

theorem Made.isLocallyWellFormed {g : Grammar} {ctx : Context} {n m : Node}
    (hg : g.Upholds fun _ n m => n.WellFormed → m.WellFormed) (hn : n.WellFormed)
    (h : Made g ctx n m) : m.isLocallyWellFormed = true := by
  cases h with
  | leaf e v => rfl
  | dict e t h => exact h.2
  | set e t h => exact NodeSet.areDistinct_addAll _ rfl
  | predicate e t nt hargs h => exact h.2
  | own rule hrule h => exact (wellFormed_iff_children.1 (hg rule hrule ctx n m h hn)).1
  | identity id hps h => exact h.2
  | claim a s reserved hps hx hs hcheck h => exact h.2
  | verify hps hx h => exact h.2
  | reachable hp hps hcandidates hfound h =>
    simp only [Node.isLocallyWellFormed, Bool.and_eq_true]
    exact ⟨⟨hfound.distinct.1, areDistinct_sublist List.filter_sublist hfound.distinct.2⟩, h.2⟩

/-- Well-formed documents assemble to well-formed documents. -/
theorem wellFormed_of_yields {g : Grammar} {ctx : Context} {n m : Node}
    (hg : g.Upholds fun _ n m => n.WellFormed → m.WellFormed)
    (hn : n.WellFormed) (h : (g.assemble ctx n).Yields m) : m.WellFormed := by
  rw [wellFormed_iff] at hn ⊢
  refine everywhere_of_yields (fun n m hn hm => hm.isLocallyWellFormed hg (wellFormed_iff.2 hn))
    ?_ ?_ (fun s => rfl) ?_ hn h
  · intro x hx
    exact wellFormed_iff.1 (wellFormed_iff.2 hx).disassemble
  · intro x _ hx
    refine hx.withExpiry (fun e n hn => ?_) ctx.expiry
    rw [isLocallyWellFormed_withExpiry]
    exact hn
  · intro rule hrule ctx' n m h _ hn
    exact wellFormed_iff.1 (hg rule hrule ctx' n m h (wellFormed_iff.2 hn))

theorem Made.hasDistinctKeys {g : Grammar} {ctx : Context} {n m : Node}
    (hg : g.Upholds fun _ n m => n.Everywhere HasDistinctKeys → m.Everywhere HasDistinctKeys)
    (hn : n.Everywhere HasDistinctKeys) (h : Made g ctx n m) : m.HasDistinctKeys := by
  cases h with
  | leaf e v => rfl
  | dict e t h => exact h.2
  | set e t h => rfl
  | predicate e t nt hargs h => exact h.2
  | own rule hrule h => exact (hg rule hrule ctx n m h hn).self
  | identity id hps h => exact h.2
  | claim a s reserved hps hx hs hcheck h => exact h.2
  | verify hps hx h => exact h.2
  | reachable hp hps hcandidates hfound h => exact h.2

/-- Documents without repeated keys assemble to documents without repeated keys, whatever the
elements of sets. -/
theorem distinctKeys_of_yields {g : Grammar} {ctx : Context} {n m : Node}
    (hg : g.Upholds fun _ n m => n.Everywhere HasDistinctKeys → m.Everywhere HasDistinctKeys)
    (hn : n.Everywhere HasDistinctKeys) (h : (g.assemble ctx n).Yields m) :
    m.Everywhere HasDistinctKeys := by
  refine everywhere_of_yields (fun n m hn hm => hm.hasDistinctKeys hg hn)
    (fun x => distinctKeys_disassemble) ?_ (fun s => rfl) ?_ hn h
  · exact fun x _ hx => hx.withExpiry hasDistinctKeys_withExpiry ctx.expiry
  · exact fun rule hrule ctx' n m h _ hn => hg rule hrule ctx' n m h hn

theorem parts_of_yields {g : Grammar} {ctx : Context} {n m : Node} (hg : g.IsStock)
    (h : (g.assemble ctx n).Yields m) (hn : n.parts = []) : m.parts = [] := by
  cases made_of_yields h with
  | dict e t hqs =>
    obtain rfl := List.map_eq_nil_iff.1 hn
    obtain rfl := List.forall₂_nil_left_iff.1 hqs.1
    rfl
  | set e t hfs =>
    obtain rfl : _ = [] := hn
    obtain rfl := List.forall₂_nil_left_iff.1 hfs
    rfl
  | own rule hrule => exact absurd hrule (hg rule)
  | _ => rfl

/-- Plain documents with flat sets assemble to documents with flat sets. -/
theorem flat_of_yields {g : Grammar} {ctx : Context} {n m : Node} (hg : g.IsStock)
    (hplain : n.isPlain = true) (hflat : n.Everywhere IsFlat)
    (h : (g.assemble ctx n).Yields m) : m.Everywhere IsFlat := by
  refine everywhere_of_yields ?_ ?_ ?_ (fun s => trivial) (hg.upholds _)
    ((isPlain_iff.1 hplain).and hflat) h
  · intro n m hn hm
    cases hm with
    | set e t hfs =>
      intro c hc
      have hc := (NodeSet.mem_addAll hc).resolve_left List.not_mem_nil
      obtain ⟨x, hx, hxc⟩ := exists_of_forall₂_right hfs hc
      exact parts_of_yields hg hxc (hn.self.2 x hx)
    | own rule hrule => exact absurd hrule (hg rule)
    | _ => trivial
  · intro x hx
    rw [disassemble_of_isPlain (isPlain_iff.2 (hx.mono fun v hv => hv.1))]
    exact hx.mono fun v hv => hv.2
  · intro x _ hx
    refine (hx.mono fun v hv => hv.2).withExpiry (fun e n hn => ?_) ctx.expiry
    cases n <;> exact hn

end Grammar

namespace Node

/-! ## Sweeps -/

variable {now : Instant}

/-- Without parts of its own a node stays as it is or goes. -/
theorem eq_of_sweep {n m : Node} (hn : n.parts = []) (h : (n.sweep now).1 = some m) : m = n := by
  cases left_of_sweep h with
  | dict e t ps =>
    obtain rfl := List.map_eq_nil_iff.1 hn
    rfl
  | set e t es =>
    obtain rfl : es = [] := hn
    rfl
  | whole n h => rfl

theorem sweepAll_sublist {es : List Node} (h : ∀ n ∈ es, n.parts = []) :
    (sweepAll now es).1.Sublist es := by
  rw [sweepAll_fst]
  induction es with
  | nil => exact .slnil
  | cons n es ih =>
    have hrest := ih fun x hx => h x (List.mem_cons_of_mem _ hx)
    rw [List.filterMap_cons]
    cases hn : (n.sweep now).1 with
    | none => exact hrest.cons _
    | some m =>
      obtain rfl := eq_of_sweep (h n List.mem_cons_self) hn
      exact hrest.cons_cons _

theorem sweepsApart_iff {n : Node} : n.SweepsApart now ↔
    (∀ e t es, n = set e t es → areDistinct (sweepAll now es).1 = true) ∧
      ∀ c ∈ n.parts, c.SweepsApart now := by
  constructor
  · intro h
    refine ⟨fun e t es hn => h e t es (hn ▸ .refl n), fun c hc e t es hes => ?_⟩
    exact h e t es (hes.of_mem hc)
  · rintro ⟨hself, hparts⟩ e t es hes
    obtain hn | ⟨c, hc, hes⟩ := reached_iff.1 hes
    · exact hself e t es hn.symm
    · exact hparts c hc e t es hes

/-- A sweep leaves a well-formed document well-formed just if the survivors of each set that it
reaches are told apart. -/
theorem wellFormed_sweep_iff {n : Node} (hn : n.WellFormed) :
    (∀ m, (n.sweep now).1 = some m → m.WellFormed) ↔ n.SweepsApart now := by
  induction n using induct_children with
  | step n ih =>
    have hc := wellFormed_iff_children.1 hn
    have hparts : (∀ c ∈ n.parts, ∀ m, (c.sweep now).1 = some m → m.WellFormed) ↔
        ∀ c ∈ n.parts, c.SweepsApart now := by
      refine forall₂_congr fun c h => ?_
      exact ih c (parts_subset_children h) (hc.2 c (parts_subset_children h))
    rw [sweepsApart_iff, ← hparts]
    constructor
    · intro h
      constructor
      · rintro e t es rfl
        cases hleft : (sweepAll now es).1 with
        | nil => rfl
        | cons c cs =>
          have hmem : c ∈ (sweepAll now es).1 := by
            rw [hleft]
            exact List.mem_cons_self
          have hm := h _ (sweep_set_of_mem hmem)
          rw [hleft] at hm
          exact (wellFormed_iff_children.1 hm).1
      · intro c hcn m hm
        obtain ⟨r, hr, hmr⟩ := exists_sweep_of_mem_parts hcn hm
        exact (wellFormed_iff_children.1 (h r hr)).2 m hmr
    · rintro ⟨hself, hswept⟩ m hm
      have hleft := left_of_sweep hm
      refine wellFormed_iff_children.2 ⟨?_, fun c hcm => ?_⟩
      · cases hleft with
        | dict e t ps => exact areDistinct_sublist (map_fst_sweepEntries ps) hc.1
        | set e t es => exact hself e t es rfl
        | whole n h => exact hc.1
      · obtain hcn | ⟨x, hx, hxc⟩ := hleft.child hcm
        · exact hc.2 c hcn
        · exact hswept x hx c hxc

/-- Flat sets of a well-formed document are swept apart. -/
theorem sweepsApart_of_flat {n : Node} (hn : n.WellFormed) (hflat : n.Everywhere IsFlat) :
    n.SweepsApart now := by
  induction n using induct_children with
  | step n ih =>
    have hc := wellFormed_iff_children.1 hn
    refine sweepsApart_iff.2 ⟨?_, fun c h => ?_⟩
    · rintro e t es rfl
      exact areDistinct_sublist (sweepAll_sublist hflat.self) hc.1
    · exact ih c (parts_subset_children h) (hc.2 c (parts_subset_children h))
        (hflat.child (parts_subset_children h))

theorem Left.hasDistinctKeys {n m : Node} (h : Left now n m) (hn : n.HasDistinctKeys) :
    m.HasDistinctKeys := by
  cases h with
  | dict e t ps => exact areDistinct_sublist (map_fst_sweepEntries ps) hn
  | set e t es => rfl
  | whole n h => exact hn

theorem Left.isFlat {n m : Node} (h : Left now n m) (hn : n.IsFlat) : m.IsFlat := by
  cases h with
  | dict e t ps => trivial
  | set e t es => exact fun c hc => hn c ((sweepAll_sublist hn).subset hc)
  | whole n h => exact hn

end Node

namespace Store

theorem distinctKeys_run {g : Grammar} (hg : g.IsStock) (config : StoreSettings)
    {steps : List Step} (hsteps : ∀ a ∈ steps, a.Writes fun n => n.Everywhere HasDistinctKeys) :
    ((empty g config).run steps).AllSlots fun d => d.Everywhere HasDistinctKeys := by
  refine allSlots_run (allSlots_empty _ _ _) ?_ ?_ ?_ hsteps
  · exact fun ctx n m hn h => distinctKeys_of_yields (hg.upholds _) hn h
  · exact fun old new r hold hnew h => everywhere_update hasDistinctKeys_withExpiry
      (fun hr ha _ => hr.hasDistinctKeys ha) hold hnew h
  · exact fun now old d hold h => everywhere_sweep Left.hasDistinctKeys hold h

theorem wellFormed_step {s : Store} {a : Step} (hg : s.grammar.IsStock)
    (hs : s.AllSlots WellFormed) (ha : a.Writes WellFormed)
    (hsweep : ∀ now, a = .sweep now → s.AllSlots fun d => d.SweepsApart now) :
    (s.step a).AllSlots WellFormed := by
  refine allSlots_step hs ?_ ?_ ?_ ha
  · exact fun ctx n m hn h => wellFormed_of_yields (hg.upholds _) hn h
  · exact fun old new r hold hnew h => hold.update hnew h
  · exact fun now hnow key writer old d hold hd =>
      (wellFormed_sweep_iff (hs key writer old hold)).2 (hsweep now hnow key writer old hold) d hd

theorem flat_run {g : Grammar} (hg : g.IsStock) (config : StoreSettings) {steps : List Step}
    (hsteps : ∀ a ∈ steps, a.Writes fun n => n.isPlain = true ∧ n.Everywhere IsFlat) :
    ((empty g config).run steps).AllSlots fun d => d.Everywhere IsFlat := by
  refine allSlots_run (allSlots_empty _ _ _) ?_ ?_ ?_ hsteps
  · exact fun ctx n m hn h => flat_of_yields hg hn.1 hn.2 h
  · refine fun old new r hold hnew h =>
      everywhere_update (fun e n hn => ?_) (fun hr ha hb => hr.isFlat ha hb) hold hnew h
    cases n <;> exact hn
  · exact fun now old d hold h => everywhere_sweep Left.isFlat hold h

/-- Every state of a run is well-formed if each sweep of a well-formed state keeps the survivors of
every set apart. -/
theorem wellFormed_before {g : Grammar} (hg : g.IsStock) (config : StoreSettings)
    {steps : List Step} (hsteps : ∀ a ∈ steps, a.Writes WellFormed)
    (hapart : ∀ before now after, steps = before ++ .sweep now :: after →
      ((empty g config).run before).AllSlots WellFormed →
      ((empty g config).run before).AllSlots fun d => d.SweepsApart now)
    (before after : List Step) (h : steps = before ++ after) :
    ((empty g config).run before).AllSlots WellFormed := by
  induction before using List.reverseRecOn generalizing after with
  | nil => exact allSlots_empty _ _ _
  | append_singleton before a ih =>
    have hsplit : steps = before ++ a :: after := by rw [h, List.append_assoc]; rfl
    have hbefore := ih (a :: after) hsplit
    rw [run_append_singleton]
    refine wellFormed_step (by rw [grammar_run]; exact hg) hbefore
      (hsteps a (by rw [hsplit]; simp)) fun now hnow => ?_
    exact hapart before now after (hnow ▸ hsplit) hbefore

end Store

/-- A run of a store over a grammar without rules of its own. No dict ever has two equal keys, if
none that is written has. With well-formed documents written every document of every state is
well-formed just if each sweep of the run keeps the survivors of every set apart; and that is so if
all sets that are written hold neither dicts nor sets but empty ones. -/
theorem wellFormed_run_iff {g : Grammar} (hg : g.IsStock) (config : StoreSettings)
    {steps : List Store.Step}
    (hsteps : ∀ a ∈ steps, a.Writes fun n => n.Everywhere HasDistinctKeys) :
    (∀ before after, steps = before ++ after →
      ((Store.empty g config).run before).AllSlots fun d => d.Everywhere HasDistinctKeys) ∧
    ((∀ a ∈ steps, a.Writes WellFormed) →
      ((∀ before after, steps = before ++ after →
          ((Store.empty g config).run before).AllSlots WellFormed) ↔
        ∀ before now after, steps = before ++ .sweep now :: after →
          ((Store.empty g config).run before).AllSlots fun d => d.SweepsApart now) ∧
      ((∀ a ∈ steps, a.Writes fun n => n.isPlain = true ∧ n.Everywhere IsFlat) →
        ∀ before after, steps = before ++ after →
          ((Store.empty g config).run before).AllSlots WellFormed)) := by
  have hpart : ∀ {D : Node → Prop} {before after}, (∀ a ∈ steps, a.Writes D) →
      steps = before ++ after → ∀ a ∈ before, a.Writes D :=
    fun h hsplit a ha => h a (by rw [hsplit]; exact List.mem_append_left _ ha)
  refine ⟨fun before after h => Store.distinctKeys_run hg config (hpart hsteps h),
    fun hwritten => ?_⟩
  have hbefore := Store.wellFormed_before hg config hwritten
  refine ⟨⟨fun h before now after hsplit => ?_, fun h => hbefore fun before now after hsplit _ =>
      h before now after hsplit⟩, fun hflat => hbefore fun before now after hsplit hwf => ?_⟩
  · intro key writer d hd
    refine (wellFormed_sweep_iff (h before _ hsplit key writer d hd)).1 fun m hm => ?_
    apply h (before ++ [.sweep now]) after (by simpa using hsplit) key writer m
    rw [Store.run_append_singleton, Store.step, Store.slot?_collect, hd]
    exact hm
  · have hslots := Store.flat_run hg config (hpart hflat hsplit)
    exact fun key writer d hd =>
      sweepsApart_of_flat (hwf key writer d hd) (hslots key writer d hd)

/-- A dict with a set of two texts. -/
def textsInSet : Node :=
  .dict none "" [(ofString "s", .set none "" [ofString "a", ofString "b"])]

/-- Written twice, the second time to last longer, and swept in between, over a grammar with a
probe. -/
theorem wellFormed_run_texts :
    ((Store.empty (standard.withProbe fun _ _ => true) {}).run
      [.write 0 ⟨"writerP"⟩ "k" textsInSet (.lasting 100),
        .write 0 ⟨"writerP"⟩ "k" textsInSet (.lasting 1000), .sweep 500]).AllSlots
      WellFormed := by
  have hdoc : textsInSet.WellFormed := by decide
  refine ((wellFormed_run_iff (isStock_standard.withProbe _) {} ?_).2 ?_).2 ?_ _ []
    (List.append_nil _).symm
  · simp [Store.Step.Writes, hdoc.distinctKeys]
  · simp [Store.Step.Writes, hdoc]
  · simp [Store.Step.Writes, textsInSet, ofString, IsFlat, parts, isPlain, arePlain,
      arePlainEntries]

/-- A dict with a set of two dicts. -/
def dictsInSet : Node :=
  .dict none "" [(ofString "s", .set none ""
    [.dict none "" [(ofString "a", .leaf none (.int 1))],
      .dict none "" [(ofString "b", .leaf none (.int 2))]])]

/-- Written twice, the second time to last longer, the two dicts are refreshed but nothing in them;
a sweep in between empties both, and the set holds two empty dicts. -/
theorem not_wellFormed_run :
    ¬ ∀ steps : List Store.Step, (∀ a ∈ steps, a.Writes WellFormed) →
      ((Store.empty standard {}).run steps).AllSlots WellFormed := by
  intro h
  have hslot : ((Store.empty standard {}).run
      [.write 0 ⟨"writerP"⟩ "k" dictsInSet (.lasting 100),
        .write 0 ⟨"writerP"⟩ "k" dictsInSet (.lasting 1000), .sweep 500]).slot? "k" ⟨"writerP"⟩ =
      some (.dict (some 1000) "" [((ofString "s").withExpiry (some 1000),
        .set (some 1000) "" [.dict (some 1000) "" [], .dict (some 1000) "" []])]) := rfl
  have hwf := h _ (by decide) _ _ _ hslot
  revert hwf
  decide

end PeerRecords
