import PeerRecords.Proofs.Store.Runs

/-
  Writers do not see each other, and failures leave no trace.
  A write reads one slot and changes no other (`update_eq`), so two stores that hold the same
  document in a slot tell the writer of that slot the same and go on agreeing on it, whatever one
  of them is told by other writers (`AgreeOn.run`). What a caller is told of each step of a run is
  the run's `history`. The main statement is `run_isolates_slots`: the history and the document of a
  slot are those of the run without other writers, the writes that failed can be left out, and
  the keys are those of the writes that succeeded.
-/

namespace PeerRecords

/-! ## Keys of tables -/

theorem Table.mem_keys_iff {κ β : Type} [TextKey κ] {t : Table κ β} {k : κ} :
    k ∈ t.keys ↔ (t.get? k).isSome = true := by
  have htext : ∀ j : κ, TextKey.text j = TextKey.text k ↔ j = k :=
    fun j => ⟨fun h => TextKey.text_injective h, fun h => h ▸ rfl⟩
  simp [keys, get?, List.find?_isSome, htext]

namespace Store

/-! ## What a write reads and changes -/

/-- The document that a slot holds after a write whose document was assembled to `doc`. -/
def accepted (old : Option Node) (doc : Node) : Except Error Node :=
  match doc with
  | .dict _ _ _ => folded old doc
  | n => .error (.notADict n.kind)

/-- What comes of a write, as a function of the slot it goes to. -/
def written (g : Grammar) (ctx : Context) (old : Option Node) (doc : Node) :
    Except Error Node × List ProbeCall :=
  let assembled := (g.assemble ctx doc).outcome
  (assembled.1.bind (accepted old), assembled.2)

theorem foldIn_eq (s : Store) (key : String) (writer : PeerId) (doc : Node) :
    s.foldIn key writer doc = (accepted (s.slot? key writer) doc).map (s.put key writer) := by
  cases doc with
  | dict e t ps =>
    rw [foldIn, accepted]
    cases folded (s.slot? key writer) (.dict e t ps) <;> rfl
  | _ => rfl

/-- Of the documents a write reads its own slot only, and changes no other. -/
theorem update_eq (s : Store) (now : Instant) (writer : PeerId) (key : String) (doc : Node)
    (options : WriteOptions) : s.update now writer key doc options =
      let w := written s.grammar (s.writeContext now writer options) (s.slot? key writer) doc
      (w.1.map (s.put key writer), w.2) := by
  unfold update written
  dsimp only
  cases (s.grammar.assemble (s.writeContext now writer options) doc).outcome.1 with
  | error e => rfl
  | ok m => exact Prod.ext (s.foldIn_eq key writer m) rfl

/-! ## What callers are told -/

/-- What the caller of a step is told: whether the write succeeded, and the calls to the probe. -/
def reply (s : Store) : Step → Except Error Unit × List ProbeCall
  | .write now writer key doc options =>
    let r := s.update now writer key doc options
    (r.1.map fun _ => (), r.2)
  | .sweep _ => (.ok (), [])

/-- A step of a run with what its caller was told. -/
structure Event where
  step : Step
  reply : Except Error Unit × List ProbeCall

/-- Whether the step was done. -/
def Event.succeeded (v : Event) : Bool := v.reply.1.isOk

/-- The steps of a run, each with what its caller was told. -/
def history (s : Store) : List Step → List Event
  | [] => []
  | a :: steps => ⟨a, s.reply a⟩ :: history (s.step a) steps

/-- The steps of a run without the writes that failed. -/
def succeeding (s : Store) (steps : List Step) : List Step :=
  ((s.history steps).filter Event.succeeded).map Event.step

/-- Whether a step may touch a slot: a write to it or a sweep. -/
def Step.reaches (key : String) (writer : PeerId) : Step → Bool
  | .write _ w k _ _ => decide (k = key ∧ w = writer)
  | .sweep _ => true

/-- Whether a step writes under a key. -/
def Step.writesTo (key : String) : Step → Bool
  | .write _ _ k _ _ => decide (k = key)
  | .sweep _ => false

theorem reply_write (s : Store) (now : Instant) (writer : PeerId) (key : String) (doc : Node)
    (options : WriteOptions) : s.reply (.write now writer key doc options) =
      let w := written s.grammar (s.writeContext now writer options) (s.slot? key writer) doc
      (w.1.map fun _ => (), w.2) := by
  rw [reply, update_eq]
  dsimp only
  cases (written s.grammar (s.writeContext now writer options) (s.slot? key writer) doc).1 <;> rfl

/-- A write that was not done leaves the store as it is. -/
theorem step_of_not_succeeded {s : Store} {a : Step} (h : (s.reply a).1.isOk = false) :
    s.step a = s := by
  cases a with
  | write now writer key doc options =>
    obtain hs | hs := s.step_write now writer key doc options
    · exact hs
    · rw [reply, hs] at h
      cases h
  | sweep now => cases h

/-- A write that was done is in the store. -/
theorem update_of_succeeded {s : Store} {now : Instant} {writer : PeerId} {key : String}
    {doc : Node} {options : WriteOptions}
    (h : (s.reply (.write now writer key doc options)).1.isOk = true) :
    (s.update now writer key doc options).1 = .ok (s.step (.write now writer key doc options)) := by
  rw [reply] at h
  rw [step]
  cases hr : (s.update now writer key doc options).1 with
  | error e =>
    rw [hr] at h
    cases h
  | ok s' => rfl

/-! ## Slots on their own -/

/-- Two stores with one grammar and the same document in a slot. -/
structure AgreeOn (key : String) (writer : PeerId) (s t : Store) : Prop where
  grammar : s.grammar = t.grammar
  config : s.config = t.config
  slot : s.slot? key writer = t.slot? key writer

variable {key : String} {writer : PeerId} {s t : Store}

theorem AgreeOn.refl (key : String) (writer : PeerId) (s : Store) : AgreeOn key writer s s :=
  ⟨rfl, rfl, rfl⟩

@[simp] theorem config_step (s : Store) (a : Step) : (s.step a).config = s.config := by
  cases a with
  | write now writer key doc options =>
    obtain h | h := s.step_write now writer key doc options
    · rw [h]
    · obtain ⟨m, r, _, _, _, hs⟩ := update_eq_ok h
      rw [hs]
      rfl
  | sweep now => rfl

theorem AgreeOn.written_eq (h : AgreeOn key writer s t) (now : Instant) (doc : Node)
    (options : WriteOptions) :
    written s.grammar (s.writeContext now writer options) (s.slot? key writer) doc =
      written t.grammar (t.writeContext now writer options) (t.slot? key writer) doc := by
  have hctx : s.writeContext now writer options = t.writeContext now writer options := by
    rw [writeContext, writeContext, h.config]
  rw [h.grammar, h.slot, hctx]

/-- The writer of the slot is told the same. -/
theorem AgreeOn.reply (h : AgreeOn key writer s t) {a : Step} (ha : a.reaches key writer = true) :
    s.reply a = t.reply a := by
  cases a with
  | write now w k doc options =>
    obtain ⟨rfl, rfl⟩ := of_decide_eq_true ha
    rw [reply_write, reply_write, h.written_eq]
  | sweep now => rfl

/-- What a write leaves in its own slot. -/
theorem slot?_step_write (s : Store) (now : Instant) (writer : PeerId) (key : String) (doc : Node)
    (options : WriteOptions) :
    (s.step (.write now writer key doc options)).slot? key writer =
      match (written s.grammar (s.writeContext now writer options) (s.slot? key writer) doc).1 with
      | .ok d => some d
      | .error _ => s.slot? key writer := by
  rw [step, update_eq]
  dsimp only
  cases (written s.grammar (s.writeContext now writer options) (s.slot? key writer) doc).1 with
  | error e => rfl
  | ok d =>
    refine (slot?_put s key writer d key writer).trans ?_
    rw [if_pos ⟨rfl, rfl⟩]

/-- A step that reaches the slot does the same to both. -/
theorem AgreeOn.step (h : AgreeOn key writer s t) {a : Step} (ha : a.reaches key writer = true) :
    AgreeOn key writer (s.step a) (t.step a) := by
  refine ⟨by simp [h.grammar], by simp [h.config], ?_⟩
  cases a with
  | write now w k doc options =>
    obtain ⟨rfl, rfl⟩ := of_decide_eq_true ha
    rw [slot?_step_write, slot?_step_write, h.written_eq, h.slot]
  | sweep now =>
    rw [Store.step, Store.step, slot?_collect, slot?_collect, h.slot]

/-- A step that does not reach the slot is not seen in it. -/
theorem AgreeOn.step_left (h : AgreeOn key writer s t) {a : Step}
    (ha : a.reaches key writer = false) : AgreeOn key writer (s.step a) t := by
  refine ⟨by simp [h.grammar], by simp [h.config], ?_⟩
  cases a with
  | write now w k doc options =>
    obtain hs | hs := s.step_write now w k doc options
    · rw [hs, h.slot]
    · obtain ⟨m, r, _, _, _, hput⟩ := update_eq_ok hs
      rw [hput, slot?_put, if_neg (of_decide_eq_false ha), h.slot]
  | sweep now => cases ha

/-- A run and the run of the steps that reach the slot alone: what its writer is told is the same,
and they end with the same document in it. -/
theorem AgreeOn.run (h : AgreeOn key writer s t) (steps : List Step) :
    (s.history steps).filter (fun v => v.step.reaches key writer) =
        t.history (steps.filter (Step.reaches key writer)) ∧
      AgreeOn key writer (s.run steps) (t.run (steps.filter (Step.reaches key writer))) := by
  induction steps generalizing s t with
  | nil => exact ⟨rfl, h⟩
  | cons a steps ih =>
    rw [history, List.filter_cons, List.filter_cons]
    cases ha : a.reaches key writer with
    | true =>
      obtain ⟨hhistory, hrun⟩ := ih (h.step ha)
      rw [if_pos rfl, if_pos rfl, history, hhistory, h.reply ha]
      exact ⟨rfl, hrun⟩
    | false =>
      obtain ⟨hhistory, hrun⟩ := ih (h.step_left ha)
      exact ⟨hhistory, hrun⟩

/-! ## Failures -/

/-- Without the writes that failed the callers of the other steps are told the same, and the store
ends as it does with them. -/
theorem run_succeeding (s : Store) (steps : List Step) :
    s.history (s.succeeding steps) = (s.history steps).filter Event.succeeded ∧
      s.run (s.succeeding steps) = s.run steps := by
  induction steps generalizing s with
  | nil => exact ⟨rfl, rfl⟩
  | cons a steps ih =>
    obtain ⟨hhistory, hrun⟩ := ih (s.step a)
    have hcons : s.succeeding (a :: steps) =
        if (s.reply a).1.isOk then a :: (s.step a).succeeding steps
        else (s.step a).succeeding steps := by
      rw [succeeding, history, List.filter_cons, Event.succeeded]
      split <;> rfl
    rw [hcons, history, List.filter_cons, Event.succeeded]
    cases ha : (s.reply a).1.isOk with
    | true =>
      rw [if_pos rfl, if_pos rfl, history, hhistory]
      exact ⟨rfl, hrun⟩
    | false =>
      have hstay := step_of_not_succeeded ha
      have hskip : s.run (a :: steps) = s.run steps := congrArg (fun t => run t steps) hstay
      rw [hstay] at hhistory hrun ⊢
      rw [if_neg Bool.false_ne_true, if_neg Bool.false_ne_true, hhistory, hrun, hskip]
      exact ⟨rfl, rfl⟩

/-! ## Keys -/

theorem mem_keys_put (s : Store) (k : String) (w : PeerId) (doc : Node) :
    key ∈ (s.put k w doc).keys ↔ k = key ∨ key ∈ s.keys := by
  have htext : TextKey.text k = TextKey.text key ↔ k = key :=
    ⟨fun h => TextKey.text_injective h, fun h => h ▸ rfl⟩
  rw [keys, keys, put, Table.mem_keys_iff, Table.mem_keys_iff, Table.get?_insert]
  by_cases hk : k = key <;> simp [htext, hk]

theorem mem_keys_step (s : Store) (a : Step) :
    key ∈ (s.step a).keys ↔
      (a.writesTo key = true ∧ (s.reply a).1.isOk = true) ∨ key ∈ s.keys := by
  cases a with
  | write now w k doc options =>
    cases ha : (s.reply (.write now w k doc options)).1.isOk with
    | true =>
      obtain ⟨m, r, _, _, _, hput⟩ := update_eq_ok (update_of_succeeded ha)
      rw [hput, mem_keys_put]
      simp [Step.writesTo]
    | false =>
      rw [step_of_not_succeeded ha]
      simp
  | sweep now =>
    rw [step, keys, keys, collect, Table.mem_keys_iff, Table.mem_keys_iff, Table.get?_map]
    simp [Step.writesTo]

/-- The keys after a run are those of before and those that a write was done under. -/
theorem mem_keys_run (s : Store) (steps : List Step) :
    key ∈ (s.run steps).keys ↔
      (∃ v ∈ s.history steps, v.step.writesTo key = true ∧ v.succeeded = true) ∨ key ∈ s.keys := by
  induction steps generalizing s with
  | nil => simp [run, history]
  | cons a steps ih =>
    have hrun : s.run (a :: steps) = (s.step a).run steps := rfl
    rw [hrun, ih, mem_keys_step, history]
    simp only [List.mem_cons, exists_eq_or_imp, Event.succeeded]
    rw [or_left_comm, or_assoc]

/-! ## Isolation -/

/-- Writers are isolated and failures leave no trace, in every interleaving of writes and sweeps.
What the writer of a slot is told and the document the slot ends with are those of the run of its
own writes and all sweeps; without the writes that failed the store ends as it does with them; and
the keys are those under which a write was done, whatever sweeps took. -/
theorem run_isolates_slots (g : Grammar) (config : StoreSettings) (steps : List Step) :
    (∀ key writer,
      ((empty g config).history steps).filter (fun v => v.step.reaches key writer) =
        (empty g config).history (steps.filter (Step.reaches key writer)) ∧
      ((empty g config).run steps).slot? key writer =
        ((empty g config).run (steps.filter (Step.reaches key writer))).slot? key writer) ∧
    (empty g config).run ((empty g config).succeeding steps) = (empty g config).run steps ∧
    ∀ key, key ∈ ((empty g config).run steps).keys ↔
      ∃ v ∈ (empty g config).history steps, v.step.writesTo key = true ∧ v.succeeded = true := by
  refine ⟨fun key writer => ?_, (run_succeeding _ steps).2, fun key => ?_⟩
  · obtain ⟨hhistory, hrun⟩ := (AgreeOn.refl key writer (empty g config)).run steps
    exact ⟨hhistory, hrun.slot⟩
  · have hempty : key ∉ (empty g config).keys := List.not_mem_nil
    rw [mem_keys_run, or_iff_left hempty]

end Store

end PeerRecords
