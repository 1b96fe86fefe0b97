import PeerRecords.Grammar

/-
  Computations that succeed.
  `bind_eq_ok` and `map_eq_ok` take a successful computation apart; `Agree x y` compares two but for
  what they fail with. `a.Yields x` says that some run of the assembly `a` ends with `x`, whatever
  calls to the probe came before; `Yields.bind` takes it apart. `a.Leads R b` says that `b` succeeds
  whenever `a` does, with the same calls and a related result; `Leads.bind` puts that together step
  by step. `a.Ends silent P` says that `a` does succeed, with a value for which `P` holds.
-/

namespace PeerRecords

theorem bind_eq_ok {ε α β : Type} {a : Except ε α} {f : α → Except ε β} {y : β} :
    (a >>= f) = .ok y ↔ ∃ x, a = .ok x ∧ f x = .ok y := by
  cases a with
  | error e => simp [bind, Except.bind]
  | ok x => simp [bind, Except.bind]

@[simp] theorem ok_bind {ε α β : Type} (x : α) (f : α → Except ε β) :
    (Except.ok x >>= f) = f x := rfl

theorem map_eq_ok {ε α β : Type} {a : Except ε α} {f : α → β} {y : β} :
    a.map f = .ok y ↔ ∃ x, a = .ok x ∧ f x = y := by
  cases a with
  | error e => simp [Except.map]
  | ok x => simp [Except.map]

theorem toOption_eq_some {ε α : Type} {a : Except ε α} {x : α} :
    a.toOption = some x ↔ a = .ok x := by
  cases a with
  | error e => simp [Except.toOption]
  | ok y => simp [Except.toOption]

/-- Two computations agree: both succeed with the same, or both fail. -/
def Agree {ε α : Type} (x y : Except ε α) : Prop := ∀ v, x = .ok v ↔ y = .ok v

namespace Agree

variable {ε α β γ : Type} {x y z : Except ε α}

theorem refl (x : Except ε α) : Agree x x := fun _ => Iff.rfl

theorem of_eq (h : x = y) : Agree x y := h ▸ .refl x

/-- Only computations one of which succeeds have to agree. -/
theorem of_ok (h : ∀ v, x = .ok v ∨ y = .ok v → Agree x y) : Agree x y :=
  fun v => ⟨fun hx => (h v (.inl hx) v).1 hx, fun hy => (h v (.inr hy) v).2 hy⟩

theorem symm (h : Agree x y) : Agree y x := fun v => (h v).symm

theorem trans (hxy : Agree x y) (hyz : Agree y z) : Agree x z := fun v => (hxy v).trans (hyz v)

instance : Trans (@Agree ε α) (@Agree ε α) (@Agree ε α) := ⟨trans⟩

/-- Computations that agree go on alike. -/
theorem bind {f g : α → Except ε β} (h : Agree x y) (hfg : ∀ a, x = .ok a → Agree (f a) (g a)) :
    Agree (x >>= f) (y >>= g) := by
  intro v
  rw [bind_eq_ok, bind_eq_ok]
  constructor
  · rintro ⟨a, ha, hv⟩
    exact ⟨a, (h a).1 ha, (hfg a ha v).1 hv⟩
  · rintro ⟨a, ha, hv⟩
    have hx := (h a).2 ha
    exact ⟨a, hx, (hfg a hx v).2 hv⟩

theorem bind_left (h : Agree x y) (f : α → Except ε β) : Agree (x >>= f) (y >>= f) :=
  h.bind fun a _ => refl (f a)

theorem bind_right {f g : α → Except ε β} (h : ∀ a, x = .ok a → Agree (f a) (g a)) :
    Agree (x >>= f) (x >>= g) := (refl x).bind h

/-- Computations that do not need each other may change places. -/
theorem bind_comm (x : Except ε α) (y : Except ε β) (f : α → β → Except ε γ) :
    Agree (x >>= fun a => y >>= fun b => f a b) (y >>= fun b => x >>= fun a => f a b) := by
  intro v
  simp only [bind_eq_ok]
  constructor
  · rintro ⟨a, ha, b, hb, hv⟩
    exact ⟨b, hb, a, ha, hv⟩
  · rintro ⟨b, hb, a, ha, hv⟩
    exact ⟨a, ha, b, hb, hv⟩

end Agree

namespace Assembly

variable {α β : Type}

/-- Some run of the assembly ends with the value. -/
def Yields (a : Assembly α) (x : α) : Prop :=
  ∃ calls calls', a.run.run calls = (.ok x, calls')

theorem Yields.of_outcome {a : Assembly α} {x : α} (h : a.outcome.1 = .ok x) : a.Yields x :=
  ⟨[], a.outcome.2, Prod.ext h rfl⟩

theorem run_bind_eq_ok {a : Assembly α} {f : α → Assembly β} {y : β}
    {calls calls' : List ProbeCall} :
    (a >>= f).run.run calls = (.ok y, calls') ↔
      ∃ x mid, a.run.run calls = (.ok x, mid) ∧ (f x).run.run mid = (.ok y, calls') := by
  rw [ExceptT.run_bind, StateT.run_bind]
  cases hx : a.run.run calls with
  | mk r mid =>
    cases r with
    | error e =>
      constructor
      · intro h
        cases h
      · rintro ⟨x, mid', hx', _⟩
        cases hx'
    | ok x =>
      constructor
      · intro h
        exact ⟨x, mid, rfl, h⟩
      · rintro ⟨x', mid', hx', h⟩
        cases hx'
        exact h

theorem Yields.bind {a : Assembly α} {f : α → Assembly β} {y : β} (h : (a >>= f).Yields y) :
    ∃ x, a.Yields x ∧ (f x).Yields y := by
  obtain ⟨calls, calls', h⟩ := h
  obtain ⟨x, mid, hx, hy⟩ := run_bind_eq_ok.1 h
  exact ⟨x, ⟨calls, mid, hx⟩, ⟨mid, calls', hy⟩⟩

@[simp] theorem yields_pure {x y : α} : (pure x : Assembly α).Yields y ↔ x = y := by
  constructor
  · rintro ⟨calls, calls', h⟩
    cases h
    rfl
  · rintro rfl
    exact ⟨[], [], rfl⟩

@[simp] theorem yields_ofExcept {r : Except Error α} {x : α} :
    (ofExcept r).Yields x ↔ r = .ok x := by
  constructor
  · rintro ⟨calls, calls', h⟩
    exact congrArg Prod.fst h
  · rintro rfl
    exact ⟨[], [], rfl⟩

/-- When the first assembly succeeds, the second does so from the same calls on, with the same calls
made and a related result. -/
def Leads (R : α → β → Prop) (a : Assembly α) (b : Assembly β) : Prop :=
  ∀ calls x calls', a.run.run calls = (.ok x, calls') →
    ∃ y, b.run.run calls = (.ok y, calls') ∧ R x y

/-- Only assemblies that succeed have to lead anywhere. -/
theorem Leads.of_yields {R : α → β → Prop} {a : Assembly α} {b : Assembly β}
    (h : ∀ x, a.Yields x → a.Leads R b) : a.Leads R b :=
  fun calls x calls' hx => h x ⟨calls, calls', hx⟩ calls x calls' hx

theorem Leads.pure {R : α → β → Prop} {x : α} {y : β} (h : R x y) :
    Leads R (Pure.pure x) (Pure.pure y) := by
  intro calls x' calls' hx
  cases hx
  exact ⟨y, rfl, h⟩

theorem Leads.ofExcept {R : α → β → Prop} {r : Except Error α} {q : Except Error β}
    (h : ∀ x, r = .ok x → ∃ y, q = .ok y ∧ R x y) :
    Leads R (Assembly.ofExcept r) (Assembly.ofExcept q) := by
  intro calls x calls' hx
  obtain ⟨y, rfl, hy⟩ := h x (congrArg Prod.fst hx)
  obtain rfl : calls = calls' := congrArg Prod.snd hx
  exact ⟨y, rfl, hy⟩

theorem Leads.bind {γ δ : Type} {R : α → β → Prop} {S : γ → δ → Prop} {a : Assembly α}
    {b : Assembly β} {f : α → Assembly γ} {g : β → Assembly δ} (hab : a.Leads R b)
    (hfg : ∀ x y, R x y → (f x).Leads S (g y)) : (a >>= f).Leads S (b >>= g) := by
  intro calls z calls' h
  obtain ⟨x, mid, hx, hz⟩ := run_bind_eq_ok.1 h
  obtain ⟨y, hy, hxy⟩ := hab calls x mid hx
  obtain ⟨w, hw, hzw⟩ := hfg x y hxy mid z calls' hz
  exact ⟨w, run_bind_eq_ok.2 ⟨y, mid, hy, hw⟩, hzw⟩

theorem Leads.refl (a : Assembly α) : a.Leads Eq a :=
  fun _ x _ hx => ⟨x, hx, rfl⟩

/-- The assembly ends with one and the same value, for which `P` holds, whatever calls were made
before; if it is to be silent it makes none. -/
def Ends (silent : Prop) (a : Assembly α) (P : α → Prop) : Prop :=
  ∃ x, P x ∧ ∀ calls, ∃ calls', a.run.run calls = (.ok x, calls') ∧ (silent → calls' = calls)

section

variable {silent : Prop}

theorem Ends.pure {P : α → Prop} {x : α} (h : P x) : Ends silent (Pure.pure x) P :=
  ⟨x, h, fun calls => ⟨calls, rfl, fun _ => rfl⟩⟩

theorem Ends.ofExcept {P : α → Prop} {r : Except Error α} {x : α} (hr : r = .ok x) (h : P x) :
    Ends silent (Assembly.ofExcept r) P := by
  subst hr
  exact .pure h

theorem Ends.bind {P : α → Prop} {Q : β → Prop} {a : Assembly α} {f : α → Assembly β}
    (ha : a.Ends silent P) (hf : ∀ x, P x → (f x).Ends silent Q) : (a >>= f).Ends silent Q := by
  obtain ⟨x, hx, hrun⟩ := ha
  obtain ⟨y, hy, hrest⟩ := hf x hx
  refine ⟨y, hy, fun calls => ?_⟩
  obtain ⟨mid, hmid, hquiet⟩ := hrun calls
  obtain ⟨calls', hcalls', hquiet'⟩ := hrest mid
  exact ⟨calls', run_bind_eq_ok.2 ⟨x, mid, hmid, hcalls'⟩,
    fun hsilent => (hquiet' hsilent).trans (hquiet hsilent)⟩

theorem Ends.exists_outcome {P : α → Prop} {a : Assembly α} (h : a.Ends silent P) :
    ∃ x, a.outcome.1 = .ok x ∧ P x := by
  obtain ⟨x, hx, hrun⟩ := h
  obtain ⟨calls', hcalls', _⟩ := hrun []
  exact ⟨x, congrArg Prod.fst hcalls', hx⟩

/-- A silent assembly is its value. -/
theorem Ends.exists_eq_pure {P : α → Prop} {a : Assembly α} (h : a.Ends True P) :
    ∃ x, a = Pure.pure x ∧ P x := by
  obtain ⟨x, hx, hrun⟩ := h
  refine ⟨x, funext fun calls => ?_, hx⟩
  obtain ⟨calls', hcalls', hquiet⟩ := hrun calls
  rw [hquiet trivial] at hcalls'
  exact hcalls'

end

end Assembly

end PeerRecords
