import PeerRecords.Store
import PeerRecords.Proofs.Outcome

/-
  Runs of a store.
  A run is a sequence of writes and sweeps at any times; a write that fails leaves the store as it
  is. Every slot after a step is the slot of before, an assembled document folded into it, or what a
  sweep left of it (`slot?_step`), so what assembly makes, updates keep and sweeps keep holds of
  every slot of every run (`slots_run`).
-/

namespace PeerRecords

/-! ## Tables -/

theorem Table.get?_filterMap {κ β γ : Type} [TextKey κ] (t : Table κ β) (f : β → Option γ)
    (k : κ) : (t.filterMap f).get? k = (t.get? k).bind f := by
  obtain ⟨ps, h⟩ := t
  simp only [filterMap, get?]
  induction ps with
  | nil => rfl
  | cons p ps ih =>
    obtain ⟨hp, hps⟩ := List.pairwise_cons.1 h
    by_cases hk : TextKey.text p.1 = TextKey.text k
    · cases hf : f p.2 with
      | some v => simp [hk, hf]
      | none =>
        -- no later key is the same, since they are all greater
        have hlater : ∀ q ∈ ps, TextKey.text q.1 ≠ TextKey.text k := by
          intro q hq he
          have hlt := hp q hq
          rw [hk, he] at hlt
          exact String.lt_irrefl _ hlt
        have hnone : (ps.filterMap fun q => (f q.2).map fun v => (q.1, v)).find?
            (fun q => TextKey.text q.1 == TextKey.text k) = none := by
          rw [List.find?_eq_none]
          intro q hq
          obtain ⟨r, hr, hrq⟩ := List.mem_filterMap.1 hq
          obtain ⟨v, _, rfl⟩ := Option.map_eq_some_iff.1 hrq
          simpa using hlater r hr
        simp [hk, hf, hnone]
    · cases hf : f p.2 with
      | some v => simpa [hk, hf] using ih hps
      | none => simpa [hk, hf] using ih hps

theorem Table.get?_map {κ β γ : Type} [TextKey κ] (t : Table κ β) (f : β → γ) (k : κ) :
    (t.map f).get? k = (t.get? k).map f := by
  rw [map, get?_filterMap]
  cases t.get? k <;> rfl

@[simp] theorem Table.get?_empty {κ β : Type} [TextKey κ] (k : κ) :
    (Table.empty : Table κ β).get? k = none := rfl

namespace Store

/-! ## Slots -/

@[simp] theorem slot?_empty (g : Grammar) (config : StoreSettings) (key : String)
    (writer : PeerId) : (empty g config).slot? key writer = none := rfl

theorem slot?_put (s : Store) (key : String) (writer : PeerId) (doc : Node) (k : String)
    (w : PeerId) : (s.put key writer doc).slot? k w =
      if key = k ∧ writer = w then some doc else s.slot? k w := by
  unfold slot? writers put
  rw [Table.get?_insert]
  by_cases hk : key = k
  · subst hk
    have hw : TextKey.text writer = TextKey.text w ↔ writer = w :=
      ⟨fun h => TextKey.text_injective h, fun h => h ▸ rfl⟩
    simp only [if_true, Option.getD_some, Table.get?_insert, hw, true_and]
    rfl
  · have hne : ¬ TextKey.text key = TextKey.text k := fun h => hk (TextKey.text_injective h)
    rw [if_neg hne, if_neg fun h => hk h.1]

theorem slot?_collect (s : Store) (now : Instant) (key : String) (writer : PeerId) :
    (s.collect now).slot? key writer = (s.slot? key writer).bind fun doc => (doc.sweep now).1 := by
  unfold slot? writers collect
  dsimp only
  rw [Table.get?_map]
  cases s.records.get? key with
  | none => rfl
  | some ws => exact ws.get?_filterMap (fun doc => (doc.sweep now).1) writer

@[simp] theorem grammar_put (s : Store) (key : String) (writer : PeerId) (doc : Node) :
    (s.put key writer doc).grammar = s.grammar := rfl

@[simp] theorem grammar_collect (s : Store) (now : Instant) :
    (s.collect now).grammar = s.grammar := rfl

/-- A write that succeeds assembles its document to a dict and folds it into its slot. -/
theorem update_eq_ok {s s' : Store} {now : Instant} {writer : PeerId} {key : String} {doc : Node}
    {options : WriteOptions} (h : (s.update now writer key doc options).1 = .ok s') :
    ∃ m r, (s.grammar.assemble (s.writeContext now writer options) doc).outcome.1 = .ok m ∧
      (∃ e t ps, m = .dict e t ps) ∧ folded (s.slot? key writer) m = .ok r ∧
      s' = s.put key writer r := by
  obtain ⟨m, hm, h⟩ := bind_eq_ok.1 h
  refine ⟨m, ?_⟩
  unfold foldIn at h
  split at h
  · rename_i e t ps
    obtain ⟨r, hr, h⟩ := bind_eq_ok.1 h
    cases h
    exact ⟨r, hm, ⟨e, t, ps, rfl⟩, hr, rfl⟩
  · cases h

/-! ## Steps and runs -/

/-- What happens to a store. -/
inductive Step where
  | write (now : Instant) (writer : PeerId) (key : String) (doc : Node) (options : WriteOptions)
  | sweep (now : Instant)

/-- Whether a step writes nothing but documents with a property. -/
def Step.Writes (D : Node → Prop) : Step → Prop
  | .write _ _ _ doc _ => D doc
  | .sweep _ => True

instance (D : Node → Prop) [DecidablePred D] (a : Step) : Decidable (a.Writes D) :=
  match a with
  | .write _ _ _ doc _ => inferInstanceAs (Decidable (D doc))
  | .sweep _ => .isTrue trivial

theorem Step.Writes.mono {D D' : Node → Prop} {a : Step} (h : a.Writes D) (hD : ∀ n, D n → D' n) :
    a.Writes D' := by
  cases a with
  | write now writer key doc options => exact hD doc h
  | sweep now => trivial

/-- The store after a step. -/
def step (s : Store) : Step → Store
  | .write now writer key doc options =>
    match (s.update now writer key doc options).1 with
    | .ok s' => s'
    | .error _ => s
  | .sweep now => s.collect now

/-- The store after a sequence of steps. -/
def run (s : Store) (steps : List Step) : Store := steps.foldl step s

/-- A write does what it does, or nothing. -/
theorem step_write (s : Store) (now : Instant) (writer : PeerId) (key : String) (doc : Node)
    (options : WriteOptions) :
    s.step (.write now writer key doc options) = s ∨
      (s.update now writer key doc options).1 =
        .ok (s.step (.write now writer key doc options)) := by
  cases h : (s.update now writer key doc options).1 with
  | error e => exact .inl (by rw [step, h])
  | ok s' => exact .inr (by rw [step, h])

@[simp] theorem grammar_step (s : Store) (a : Step) : (s.step a).grammar = s.grammar := by
  cases a with
  | write now writer key doc options =>
    obtain h | h := s.step_write now writer key doc options
    · rw [h]
    · obtain ⟨m, r, _, _, _, hs⟩ := update_eq_ok h
      rw [hs, grammar_put]
  | sweep now => rfl

@[simp] theorem grammar_run (s : Store) (steps : List Step) :
    (s.run steps).grammar = s.grammar := by
  induction steps generalizing s with
  | nil => rfl
  | cons a steps ih => exact (ih (s.step a)).trans (s.grammar_step a)

/-- Where the document of a slot after a step comes from. -/
theorem slot?_step {s : Store} {a : Step} {key : String} {writer : PeerId} {d : Node}
    (h : (s.step a).slot? key writer = some d) :
    s.slot? key writer = some d ∨
      (∃ now doc options m, a = .write now writer key doc options ∧
        (s.grammar.assemble (s.writeContext now writer options) doc).Yields m ∧
        folded (s.slot? key writer) m = .ok d) ∨
      ∃ now old, a = .sweep now ∧ s.slot? key writer = some old ∧ (old.sweep now).1 = some d := by
  cases a with
  | write now w k doc options =>
    obtain hs | hs := s.step_write now w k doc options
    · rw [hs] at h
      exact .inl h
    · obtain ⟨m, r, hm, _, hr, hs'⟩ := update_eq_ok hs
      rw [hs', slot?_put] at h
      split at h
      · rename_i he
        obtain ⟨rfl, rfl⟩ := he
        cases h
        exact .inr (.inl ⟨now, doc, options, m, rfl, .of_outcome hm, hr⟩)
      · exact .inl h
  | sweep now =>
    rw [step, slot?_collect] at h
    obtain ⟨old, hold, hd⟩ := Option.bind_eq_some_iff.1 h
    exact .inr (.inr ⟨now, old, rfl, hold, hd⟩)

/-- Every slot of a store holds a document with a property. -/
def AllSlots (Q : Node → Prop) (s : Store) : Prop :=
  ∀ key writer d, s.slot? key writer = some d → Q d

theorem allSlots_empty (Q : Node → Prop) (g : Grammar) (config : StoreSettings) :
    (empty g config).AllSlots Q := by
  intro key writer d h
  cases h

theorem allSlots_put_iff {Q : Node → Prop} {s : Store} (hs : s.AllSlots Q) {key : String}
    {writer : PeerId} {doc : Node} : (s.put key writer doc).AllSlots Q ↔ Q doc := by
  constructor
  · exact fun h => h key writer doc (by rw [slot?_put, if_pos ⟨rfl, rfl⟩])
  · intro h k w d hd
    rw [slot?_put] at hd
    split at hd
    · cases hd
      exact h
    · exact hs k w d hd

theorem allSlots_step {Q D : Node → Prop} {s : Store} {a : Step} (hs : s.AllSlots Q)
    (hmade : ∀ ctx n m, D n → (s.grammar.assemble ctx n).Yields m → Q m)
    (hupdate : ∀ old new r : Node, Q old → Q new → old.update new = .ok r → Q r)
    (hsweep : ∀ now, a = .sweep now → ∀ key writer old d, s.slot? key writer = some old →
      (old.sweep now).1 = some d → Q d)
    (ha : a.Writes D) : (s.step a).AllSlots Q := by
  intro key writer d h
  obtain h | ⟨now, doc, options, m, rfl, hm, hd⟩ | ⟨now, old, rfl, hold, hd⟩ := slot?_step h
  · exact hs key writer d h
  · have hQ := hmade _ doc m ha hm
    unfold folded at hd
    split at hd
    · rename_i old hold
      exact hupdate old m d (hs key writer old hold) hQ hd
    · cases hd
      exact hQ
  · exact hsweep now rfl key writer old d hold hd

/-- What assembly makes and updates and sweeps keep holds of every slot after every run. -/
theorem allSlots_run {Q D : Node → Prop} {s : Store} (hs : s.AllSlots Q)
    (hmade : ∀ ctx n m, D n → (s.grammar.assemble ctx n).Yields m → Q m)
    (hupdate : ∀ old new r : Node, Q old → Q new → old.update new = .ok r → Q r)
    (hsweep : ∀ now (old d : Node), Q old → (old.sweep now).1 = some d → Q d)
    {steps : List Step} (hsteps : ∀ a ∈ steps, a.Writes D) : (s.run steps).AllSlots Q := by
  induction steps generalizing s with
  | nil => exact hs
  | cons a steps ih =>
    have hstep : (s.step a).AllSlots Q := by
      refine allSlots_step hs hmade hupdate ?_ (hsteps a List.mem_cons_self)
      exact fun now _ key writer old d hold hd => hsweep now old d (hs key writer old hold) hd
    refine ih hstep ?_ fun b hb => hsteps b (List.mem_cons_of_mem _ hb)
    rw [grammar_step]
    exact hmade

/-- In a run of writes alone it is enough that updates keep what assembly makes. -/
theorem allSlots_run_of_no_sweep {Q D : Node → Prop} {s : Store} (hs : s.AllSlots Q)
    (hmade : ∀ ctx n m, D n → (s.grammar.assemble ctx n).Yields m → Q m)
    (hupdate : ∀ old new r : Node, Q old → Q new → old.update new = .ok r → Q r)
    {steps : List Step} (hsteps : ∀ a ∈ steps, a.Writes D) (hno : ∀ now, .sweep now ∉ steps) :
    (s.run steps).AllSlots Q := by
  induction steps generalizing s with
  | nil => exact hs
  | cons a steps ih =>
    have hstep : (s.step a).AllSlots Q := by
      refine allSlots_step hs hmade hupdate ?_ (hsteps a List.mem_cons_self)
      rintro now rfl
      exact absurd List.mem_cons_self (hno now)
    refine ih hstep ?_ (fun b hb => hsteps b (List.mem_cons_of_mem _ hb))
      fun now hmem => hno now (List.mem_cons_of_mem _ hmem)
    rw [grammar_step]
    exact hmade

theorem run_append_singleton (s : Store) (steps : List Step) (a : Step) :
    s.run (steps ++ [a]) = (s.run steps).step a := by
  simp only [run, List.foldl_append, List.foldl_cons, List.foldl_nil]

end Store

end PeerRecords
