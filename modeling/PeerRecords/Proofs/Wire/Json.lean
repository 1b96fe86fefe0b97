import PeerRecords.Wire.Json
import PeerRecords.Proofs.Json.Parser

/-
  The JSON shape of a document is read back, up to the limit.
  A reader that is given `n` more arrays and objects reads a value when it has no more than that
  around any of its parts (`Json.nesting`), and otherwise nothing. This holds of the reader of
  documents on every document that is written (`ofJson?_toJson`).
-/

namespace PeerRecords

namespace Json

/-! ## Nesting -/

mutual

/-- How many arrays and objects are open at once at most. -/
def nesting : Json → Nat
  | .null | .bool _ | .number _ | .string _ => 0
  | .array items => itemsNesting items + 1
  | .object fields => fieldsNesting fields + 1
termination_by structural j => j

/-- How many arrays and objects are open at once at most in a list of items. -/
def itemsNesting : List Json → Nat
  | [] => 0
  | j :: js => max (nesting j) (itemsNesting js)
termination_by structural js => js

/-- How many arrays and objects are open at once at most in a list of fields. -/
def fieldsNesting : List (Option String × Json) → Nat
  | [] => 0
  | (_, j) :: fs => max (nesting j) (fieldsNesting fs)
termination_by structural fs => fs

end

/-- The reader takes the value as `x` if it may open as many arrays and objects as there are. -/
def ReadsAs {α : Type} (read : Nat → Json → Option α) (j : Json) (x : α) : Prop :=
  ∀ n, read n j = if j.nesting ≤ n then some x else none

/-- Items that are read one by one are read in order, if the limit admits all of them. -/
theorem mapM_eq_of_readsAs {α : Type} {read : Nat → Json → Option α} {write : α → Json}
    {xs : List α} (h : ∀ x ∈ xs, ReadsAs read (write x) x) (n : Nat) :
    (xs.map write).mapM (read n) =
      if itemsNesting (xs.map write) ≤ n then some xs else none := by
  induction xs with
  | nil => rfl
  | cons x xs ih =>
    have hx := h x List.mem_cons_self n
    have hxs := ih fun y hy => h y (List.mem_cons_of_mem _ hy)
    rw [List.map_cons, List.mapM_cons, hx, hxs, itemsNesting]
    by_cases hhead : (write x).nesting ≤ n
    · by_cases htail : itemsNesting (xs.map write) ≤ n
      · rw [if_pos hhead, if_pos htail, if_pos (by omega)]
        rfl
      · rw [if_pos hhead, if_neg htail, if_neg (by omega)]
        rfl
    · rw [if_neg hhead]
      exact (if_neg (by omega)).symm

end Json

namespace Wire

open Json (ReadsAs)

/-! ## Induction over documents -/

/-- Induction over documents as they travel. -/
@[elab_as_elim]
theorem induct {motive : Wire → Prop} (string : ∀ s, motive (.string s))
    (bool : ∀ b, motive (.bool b)) (blob : ∀ bytes, motive (.blob bytes))
    (int : ∀ s, motive (.int s)) (float : ∀ s, motive (.float s))
    (dict : ∀ t ps, (∀ p ∈ ps, motive p.1 ∧ motive p.2) → motive (.dict t ps))
    (set : ∀ t es, (∀ w ∈ es, motive w) → motive (.set t es))
    (predicate : ∀ t as ps, (∀ w ∈ as, motive w) → (∀ p ∈ ps, motive p.1 ∧ motive p.2) →
      motive (.predicate t as ps))
    (w : Wire) : motive w :=
  @Wire.rec motive (fun ps => ∀ p ∈ ps, motive p.1 ∧ motive p.2) (fun ws => ∀ w ∈ ws, motive w)
    (fun p => motive p.1 ∧ motive p.2) string bool blob int float dict set predicate
    (fun _ h => absurd h List.not_mem_nil)
    (fun _ _ hp hps q hq => (List.mem_cons.1 hq).elim (fun e => e ▸ hp) (hps q))
    (fun _ h => absurd h List.not_mem_nil)
    (fun _ _ hw hws v hv => (List.mem_cons.1 hv).elim (fun e => e ▸ hw) (hws v))
    (fun _ _ h₁ h₂ => ⟨h₁, h₂⟩) w

theorem elementsToJson_eq_map (es : List Wire) : elementsToJson es = es.map toJson := by
  induction es with
  | nil => rfl
  | cons w ws ih => rw [elementsToJson, ih, List.map_cons]

theorem entriesToJson_eq_map (ps : List (Wire × Wire)) :
    entriesToJson ps = ps.map fun p => .array [toJson p.1, toJson p.2] := by
  induction ps with
  | nil => rfl
  | cons p ps ih =>
    obtain ⟨k, v⟩ := p
    rw [entriesToJson, ih, List.map_cons]

/-! ## Arrays -/

theorem readsAs_elements {es : List Wire} (h : ∀ w ∈ es, ReadsAs ofJson? (toJson w) w) :
    ReadsAs elementsOfJson? (.array (elementsToJson es)) es := by
  intro n
  rw [elementsToJson_eq_map, Json.nesting]
  cases n with
  | zero =>
    rw [if_neg (by omega)]
    rfl
  | succ n =>
    rw [elementsOfJson?, Json.mapM_eq_of_readsAs h]
    simp only [Nat.add_le_add_iff_right]

theorem readsAs_entry {p : Wire × Wire} (hk : ReadsAs ofJson? (toJson p.1) p.1)
    (hv : ReadsAs ofJson? (toJson p.2) p.2) :
    ReadsAs entryOfJson? (.array [toJson p.1, toJson p.2]) p := by
  intro n
  have hnesting : (Json.array [toJson p.1, toJson p.2]).nesting =
      max (toJson p.1).nesting (toJson p.2).nesting + 1 := by
    simp only [Json.nesting, Json.itemsNesting, Nat.max_zero]
  rw [hnesting]
  cases n with
  | zero =>
    rw [if_neg (by omega)]
    rfl
  | succ n =>
    rw [entryOfJson?, hk n, hv n]
    by_cases hfst : (toJson p.1).nesting ≤ n
    · by_cases hsnd : (toJson p.2).nesting ≤ n
      · rw [if_pos hfst, if_pos hsnd, if_pos (by omega)]
        rfl
      · rw [if_pos hfst, if_neg hsnd, if_neg (by omega)]
        rfl
    · rw [if_neg hfst]
      exact (if_neg (by omega)).symm

theorem readsAs_entries {ps : List (Wire × Wire)}
    (h : ∀ p ∈ ps, ReadsAs ofJson? (toJson p.1) p.1 ∧ ReadsAs ofJson? (toJson p.2) p.2) :
    ReadsAs entriesOfJson? (.array (entriesToJson ps)) ps := by
  intro n
  rw [entriesToJson_eq_map, Json.nesting]
  cases n with
  | zero =>
    rw [if_neg (by omega)]
    rfl
  | succ n =>
    have hps : ∀ p ∈ ps, ReadsAs entryOfJson? (.array [toJson p.1, toJson p.2]) p :=
      fun p hp => readsAs_entry (h p hp).1 (h p hp).2
    rw [entriesOfJson?, Json.mapM_eq_of_readsAs hps]
    simp only [Nat.add_le_add_iff_right]

/-! ## Bodies -/

/-- The tag that is written, and nothing for an empty one, is read as that tag. -/
theorem withDefault?_tag (t : String) :
    Json.withDefault? "" Json.asString? (if t.isEmpty then none else some (.ofString t)) =
      some t := by
  by_cases ht : t.isEmpty = true
  · rw [if_pos ht, String.isEmpty_iff.1 ht]
    rfl
  · rw [if_neg ht]
    rfl

/-- The record of a tag and one more field. -/
theorem record?_tagField (t name : String) (hname : name ≠ "tag") (j : Json) :
    (Json.ofFields (tagField t ++ [(name, j)])).record? true ["tag", name] =
      some [if t.isEmpty then none else some (.ofString t), some j] := by
  unfold tagField
  split <;> simp [Json.record?, Json.ofFields, Json.field?, Json.fieldValues, hname, hname.symm]

/-- The nesting of a record of a tag and one more field. -/
theorem nesting_tagField (t name : String) (j : Json) :
    (Json.ofFields (tagField t ++ [(name, j)])).nesting = j.nesting + 1 := by
  unfold tagField
  split <;> simp [Json.ofFields, Json.nesting, Json.fieldsNesting, Json.ofString]

theorem readsAs_dictBody {t : String} {ps : List (Wire × Wire)}
    (h : ReadsAs entriesOfJson? (.array (entriesToJson ps)) ps) :
    ReadsAs dictOfJson? (.ofFields (tagField t ++ [("pairs", .array (entriesToJson ps))]))
      (.dict t ps) := by
  intro n
  rw [nesting_tagField]
  cases n with
  | zero =>
    rw [if_neg (by omega)]
    rfl
  | succ n =>
    rw [dictOfJson?, record?_tagField t "pairs" (by decide)]
    simp only [withDefault?_tag, Json.required?, Option.bind_eq_bind, Option.bind_some, h n]
    by_cases hn : (Json.array (entriesToJson ps)).nesting ≤ n
    · rw [if_pos hn, if_pos (by omega)]
      rfl
    · rw [if_neg hn, if_neg (by omega)]
      rfl

theorem readsAs_setBody {t : String} {es : List Wire}
    (h : ReadsAs elementsOfJson? (.array (elementsToJson es)) es) :
    ReadsAs setOfJson? (.ofFields (tagField t ++ [("elements", .array (elementsToJson es))]))
      (.set t es) := by
  intro n
  rw [nesting_tagField]
  cases n with
  | zero =>
    rw [if_neg (by omega)]
    rfl
  | succ n =>
    rw [setOfJson?, record?_tagField t "elements" (by decide)]
    simp only [withDefault?_tag, Json.required?, Option.bind_eq_bind, Option.bind_some, h n]
    by_cases hn : (Json.array (elementsToJson es)).nesting ≤ n
    · rw [if_pos hn, if_pos (by omega)]
      rfl
    · rw [if_neg hn, if_neg (by omega)]
      rfl

theorem readsAs_predicateBody {t : String} {as : List Wire} {ps : List (Wire × Wire)}
    (has : ReadsAs elementsOfJson? (.array (elementsToJson as)) as)
    (hps : ReadsAs entriesOfJson? (.array (entriesToJson ps)) ps) :
    ReadsAs predicateOfJson? (.ofFields [("tag", .ofString t),
        ("positional", .array (elementsToJson as)), ("named", .array (entriesToJson ps))])
      (.predicate t as ps) := by
  intro n
  have hnesting : (Json.ofFields [("tag", .ofString t),
      ("positional", .array (elementsToJson as)), ("named", .array (entriesToJson ps))]).nesting =
      max (Json.array (elementsToJson as)).nesting (Json.array (entriesToJson ps)).nesting + 1 := by
    simp [Json.ofFields, Json.nesting, Json.fieldsNesting, Json.ofString]
  rw [hnesting]
  cases n with
  | zero =>
    rw [if_neg (by omega)]
    rfl
  | succ n =>
    have hrecord : (Json.ofFields [("tag", .ofString t),
        ("positional", .array (elementsToJson as)),
        ("named", .array (entriesToJson ps))]).record? true ["tag", "positional", "named"] =
        some [some (.ofString t), some (.array (elementsToJson as)),
          some (.array (entriesToJson ps))] := by
      simp [Json.record?, Json.ofFields, Json.field?, Json.fieldValues]
    have htag : Json.required? Json.asString? (some (.ofString t)) = some t := rfl
    rw [predicateOfJson?, hrecord]
    simp only [htag, Json.withDefault?, Option.bind_eq_bind, Option.bind_some, has n, hps n]
    by_cases ha : (Json.array (elementsToJson as)).nesting ≤ n
    · by_cases hp : (Json.array (entriesToJson ps)).nesting ≤ n
      · rw [if_pos ha, if_pos hp, if_pos (by omega)]
        rfl
      · rw [if_pos ha, if_neg hp, if_neg (by omega)]
        rfl
    · rw [if_neg ha]
      exact (if_neg (by omega)).symm

/-! ## Documents -/

theorem itemsNesting_ofNat (bytes : List UInt8) :
    Json.itemsNesting (bytes.map fun b => Json.ofNat b.toNat) = 0 := by
  induction bytes with
  | nil => rfl
  | cons b bytes ih => rw [List.map_cons, Json.itemsNesting, ih]; rfl

theorem asBytes?_ofBytes (bytes : List UInt8) : ReadsAs Json.asBytes? (.ofBytes bytes) bytes := by
  have hbyte : ∀ b : UInt8, Json.asByte? (.ofNat b.toNat) = some b := by
    intro b
    have hnat : (Json.Number.ofNat b.toNat).nat? = some b.toNat := Numeral.nat?_digits b.toNat
    have hlt : b.toNat < 256 := b.toNat_lt
    simp only [Json.asByte?, Json.asNat?, Json.ofNat, hnat, Option.filter_some, hlt,
      decide_true, if_true, Option.map_some, UInt8.ofNat_toNat]
  have hread : (bytes.map fun b => Json.ofNat b.toNat).mapM Json.asByte? = some bytes := by
    induction bytes with
    | nil => rfl
    | cons b bytes ih => rw [List.map_cons, List.mapM_cons, hbyte, ih]; rfl
  intro n
  rw [Json.ofBytes, Json.nesting, itemsNesting_ofNat]
  cases n with
  | zero => rfl
  | succ n =>
    rw [if_pos (by omega)]
    exact hread

/-- An object with one field has one level more than the value of the field. -/
theorem nesting_form (name : String) (body : Json) :
    (form name body).nesting = body.nesting + 1 := by
  simp [form, Json.ofFields, Json.nesting, Json.fieldsNesting]

/-- The reader of documents goes from the name of a form to the reader of its body. -/
theorem readsAs_form {name : String} {body : Json} {w : Wire} (read : Nat → Json → Option Wire)
    (hname : ∀ n, ofJson? (n + 1) (form name body) = read n body) (h : ReadsAs read body w) :
    ReadsAs ofJson? (form name body) w := by
  intro n
  rw [nesting_form]
  cases n with
  | zero =>
    rw [if_neg (by omega)]
    rfl
  | succ n =>
    rw [hname, h n]
    simp only [Nat.add_le_add_iff_right]

/-- A document is read back if the limit admits all its arrays and objects, and otherwise
nothing is read. -/
theorem ofJson?_toJson (w : Wire) : ReadsAs ofJson? (toJson w) w := by
  induction w using Wire.induct with
  | string s => exact readsAs_form (fun _ _ => some (.string s)) (fun _ => rfl) fun _ => rfl
  | bool b => exact readsAs_form (fun _ _ => some (.bool b)) (fun _ => rfl) fun _ => rfl
  | blob bytes =>
    refine readsAs_form (fun n j => (j.asBytes? n).map .blob) (fun _ => rfl) fun n => ?_
    dsimp only
    rw [asBytes?_ofBytes bytes n]
    split <;> rfl
  | int s => exact readsAs_form (fun _ _ => some (.int s)) (fun _ => rfl) fun _ => rfl
  | float s => exact readsAs_form (fun _ _ => some (.float s)) (fun _ => rfl) fun _ => rfl
  | dict t ps ih =>
    exact readsAs_form dictOfJson? (fun _ => rfl) (readsAs_dictBody (readsAs_entries ih))
  | set t es ih =>
    exact readsAs_form setOfJson? (fun _ => rfl) (readsAs_setBody (readsAs_elements ih))
  | predicate t as ps iha ihp =>
    exact readsAs_form predicateOfJson? (fun _ => rfl)
      (readsAs_predicateBody (readsAs_elements iha) (readsAs_entries ihp))

/-! ## Text -/

theorem isPrintable_ofFields {fields : List (String × Json)} (h : ∀ f ∈ fields, f.2.IsPrintable) :
    (Json.ofFields fields).IsPrintable := by
  refine Json.fieldsPrintable_iff.2 fun f hf => ?_
  obtain ⟨g, hg, rfl⟩ := List.mem_map.1 hf
  exact ⟨⟨g.1, rfl⟩, h g hg⟩

theorem isPrintable_tagField {t name : String} {j : Json} (h : j.IsPrintable) :
    (Json.ofFields (tagField t ++ [(name, j)])).IsPrintable := by
  refine isPrintable_ofFields fun f hf => ?_
  obtain hf | hf := List.mem_append.1 hf
  · unfold tagField at hf
    split at hf
    · cases hf
    · rw [List.mem_singleton.1 hf]
      exact ⟨t, rfl⟩
  · rw [List.mem_singleton.1 hf]
    exact h

theorem isPrintable_form {name : String} {body : Json} (h : body.IsPrintable) :
    (form name body).IsPrintable :=
  isPrintable_ofFields fun f hf => by rwa [List.mem_singleton.1 hf]

theorem isPrintable_elements {es : List Wire} (h : ∀ w ∈ es, (toJson w).IsPrintable) :
    (Json.array (elementsToJson es)).IsPrintable := by
  refine Json.arePrintable_iff.2 fun j hj => ?_
  rw [elementsToJson_eq_map] at hj
  obtain ⟨w, hw, rfl⟩ := List.mem_map.1 hj
  exact h w hw

theorem isPrintable_entries {ps : List (Wire × Wire)}
    (h : ∀ p ∈ ps, (toJson p.1).IsPrintable ∧ (toJson p.2).IsPrintable) :
    (Json.array (entriesToJson ps)).IsPrintable := by
  refine Json.arePrintable_iff.2 fun j hj => ?_
  rw [entriesToJson_eq_map] at hj
  obtain ⟨p, hp, rfl⟩ := List.mem_map.1 hj
  exact ⟨(h p hp).1, (h p hp).2, trivial⟩

/-- What is written of a document is printable. -/
theorem isPrintable_toJson (w : Wire) : (toJson w).IsPrintable := by
  induction w using Wire.induct with
  | string s => exact isPrintable_form ⟨s, rfl⟩
  | bool b => exact isPrintable_form trivial
  | blob bytes =>
    refine isPrintable_form (Json.arePrintable_iff.2 fun j hj => ?_)
    obtain ⟨b, _, rfl⟩ := List.mem_map.1 hj
    exact ⟨b.toNat, rfl⟩
  | int s => exact isPrintable_form ⟨s, rfl⟩
  | float s => exact isPrintable_form ⟨s, rfl⟩
  | dict t ps ih => exact isPrintable_form (isPrintable_tagField (isPrintable_entries ih))
  | set t es ih => exact isPrintable_form (isPrintable_tagField (isPrintable_elements ih))
  | predicate t as ps iha ihp =>
    refine isPrintable_form (isPrintable_ofFields fun f hf => ?_)
    simp only [List.mem_cons, List.not_mem_nil, or_false] at hf
    obtain rfl | rfl | rfl := hf
    · exact ⟨t, rfl⟩
    · exact isPrintable_elements iha
    · exact isPrintable_entries ihp

end Wire

end PeerRecords
