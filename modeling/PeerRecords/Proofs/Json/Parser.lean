import PeerRecords.Json.Parser
import PeerRecords.Proofs.Json.Token
import PeerRecords.Proofs.Text.Utf8

/-
  Printed JSON is read back.
  The text of a printable value spells a list of tokens (`spells_text`), and the machine that reads
  tokens goes over these from wanting a value to having finished that value, whatever is open
  around it (`steps_toks`). So the bytes of the text hold the value again (`parse?_encode_text`).
-/

namespace PeerRecords.Json

/-! ## Induction over values -/

/-- Induction over JSON values. -/
@[elab_as_elim]
theorem induct {motive : Json → Prop} (null : motive .null) (bool : ∀ b, motive (.bool b))
    (number : ∀ x, motive (.number x)) (string : ∀ s, motive (.string s))
    (array : ∀ items, (∀ j ∈ items, motive j) → motive (.array items))
    (object : ∀ fields, (∀ f ∈ fields, motive f.2) → motive (.object fields))
    (j : Json) : motive j :=
  @Json.rec motive (fun items => ∀ j ∈ items, motive j) (fun fields => ∀ f ∈ fields, motive f.2)
    (fun f => motive f.2) null bool number string array object
    (fun _ h => absurd h List.not_mem_nil)
    (fun _ _ hj hjs i hi => (List.mem_cons.1 hi).elim (fun e => e ▸ hj) (hjs i))
    (fun _ h => absurd h List.not_mem_nil)
    (fun _ _ hf hfs g hg => (List.mem_cons.1 hg).elim (fun e => e ▸ hf) (hfs g))
    (fun _ _ h => h) j

/-! ## The tokens of a value -/

mutual

/-- The tokens that a value is printed as. -/
def toks : Json → List Token
  | .null => [.null]
  | .bool b => [.bool b]
  | .number x => [.number x]
  | .string s => [.string s]
  | .array items => .openArray :: itemsToks items
  | .object fields => .openObject :: fieldsToks fields
termination_by structural j => j

/-- The tokens of items, with the closing bracket. -/
def itemsToks : List Json → List Token
  | [] => [.closeArray]
  | j :: js => toks j ++ moreItemsToks js
termination_by structural js => js

/-- The tokens of the items after the first, with the closing bracket. -/
def moreItemsToks : List Json → List Token
  | [] => [.closeArray]
  | j :: js => .comma :: (toks j ++ moreItemsToks js)
termination_by structural js => js

/-- The tokens of fields, with the closing brace. -/
def fieldsToks : List (Option String × Json) → List Token
  | [] => [.closeObject]
  | (k, j) :: fs => .string k :: .colon :: (toks j ++ moreFieldsToks fs)
termination_by structural fs => fs

/-- The tokens of the fields after the first, with the closing brace. -/
def moreFieldsToks : List (Option String × Json) → List Token
  | [] => [.closeObject]
  | (k, j) :: fs => .comma :: .string k :: .colon :: (toks j ++ moreFieldsToks fs)
termination_by structural fs => fs

end

mutual

/-- All strings and names decode, and all numbers are in plain digits. -/
def IsPrintable : Json → Prop
  | .null | .bool _ => True
  | .number x => ∃ n, x = .ofNat n
  | .string s => ∃ t, s = some t
  | .array items => ArePrintable items
  | .object fields => FieldsPrintable fields
termination_by structural j => j

/-- All items are printable. -/
def ArePrintable : List Json → Prop
  | [] => True
  | j :: js => IsPrintable j ∧ ArePrintable js
termination_by structural js => js

/-- All names decode and all values are printable. -/
def FieldsPrintable : List (Option String × Json) → Prop
  | [] => True
  | (k, j) :: fs => (∃ t, k = some t) ∧ IsPrintable j ∧ FieldsPrintable fs
termination_by structural fs => fs

end

theorem arePrintable_iff {items : List Json} : ArePrintable items ↔ ∀ j ∈ items, IsPrintable j := by
  induction items with
  | nil => simp [ArePrintable]
  | cons j js ih => simp [ArePrintable, ih]

theorem fieldsPrintable_iff {fields : List (Option String × Json)} :
    FieldsPrintable fields ↔ ∀ f ∈ fields, (∃ t, f.1 = some t) ∧ IsPrintable f.2 := by
  induction fields with
  | nil => simp [FieldsPrintable]
  | cons f fs ih =>
    obtain ⟨k, j⟩ := f
    simp [FieldsPrintable, ih, and_assoc]

/-! ## Text to tokens -/

/-- What follows an item cannot continue it. -/
theorem ends_moreItemsText (js : List Json) (rest : List Symbol) :
    Ends ((moreItemsText js).map some ++ rest) := by
  cases js <;> exact ends_cons (by decide)

/-- What follows a field cannot continue it. -/
theorem ends_moreFieldsText (fs : List (Option String × Json)) (rest : List Symbol) :
    Ends ((moreFieldsText fs).map some ++ rest) := by
  cases fs <;> exact ends_cons (by decide)

theorem spells_closeArray : Spells [']'] [.closeArray] :=
  spells_nil.mark (by decide) fun _ => rfl

theorem spells_closeObject : Spells ['\x7d'] [.closeObject] :=
  spells_nil.mark (by decide) fun _ => rfl

theorem spells_moreItemsText {items : List Json} (h : ∀ j ∈ items, Spells (text j) (toks j)) :
    Spells (moreItemsText items) (moreItemsToks items) := by
  induction items with
  | nil => exact spells_closeArray
  | cons j js ih =>
    have hjs := ih fun i hi => h i (List.mem_cons_of_mem _ hi)
    have hj := (h j List.mem_cons_self).append hjs fun rest _ => ends_moreItemsText js rest
    exact hj.mark (by decide) fun _ => rfl

/-- A name, a colon, a value and what follows. -/
theorem spells_field {k : Option String} {j : Json} {fs : List (Option String × Json)}
    (hk : ∃ t, k = some t) (hj : Spells (text j) (toks j))
    (hfs : Spells (moreFieldsText fs) (moreFieldsToks fs)) :
    Spells (optionText k ++ ':' :: (text j ++ moreFieldsText fs))
      (.string k :: .colon :: (toks j ++ moreFieldsToks fs)) := by
  obtain ⟨t, rfl⟩ := hk
  have hvalue := hj.append hfs fun rest _ => ends_moreFieldsText fs rest
  exact (hvalue.mark (c := ':') (t := .colon) (by decide) fun _ => rfl).string

theorem spells_moreFieldsText {fields : List (Option String × Json)}
    (h : ∀ f ∈ fields, (∃ t, f.1 = some t) ∧ Spells (text f.2) (toks f.2)) :
    Spells (moreFieldsText fields) (moreFieldsToks fields) := by
  induction fields with
  | nil => exact spells_closeObject
  | cons f fs ih =>
    have hf := h f List.mem_cons_self
    have hfs := ih fun g hg => h g (List.mem_cons_of_mem _ hg)
    exact (spells_field hf.1 hf.2 hfs).mark (by decide) fun _ => rfl

/-- The text of a printable value spells its tokens. -/
theorem spells_text {j : Json} (h : j.IsPrintable) : Spells (text j) (toks j) := by
  induction j using Json.induct with
  | null => exact spells_of_readToken (by decide) fun _ _ => rfl
  | bool b => cases b <;> exact spells_of_readToken (by decide) fun _ _ => rfl
  | number x =>
    obtain ⟨n, rfl⟩ := h
    exact spells_nat n
  | string s =>
    obtain ⟨t, rfl⟩ := h
    exact spells_string t
  | array items ih =>
    have hitems : ∀ j ∈ items, Spells (text j) (toks j) :=
      fun j hj => ih j hj (arePrintable_iff.1 h j hj)
    have hbody : Spells (itemsText items) (itemsToks items) := by
      cases items with
      | nil => exact spells_closeArray
      | cons j js =>
        have hjs := spells_moreItemsText fun i hi => hitems i (List.mem_cons_of_mem _ hi)
        exact (hitems j List.mem_cons_self).append hjs fun rest _ => ends_moreItemsText js rest
    exact hbody.mark (by decide) fun _ => rfl
  | object fields ih =>
    have hfields : ∀ f ∈ fields, (∃ t, f.1 = some t) ∧ Spells (text f.2) (toks f.2) :=
      fun f hf => (fieldsPrintable_iff.1 h f hf).imp_right (ih f hf)
    have hbody : Spells (fieldsText fields) (fieldsToks fields) := by
      cases fields with
      | nil => exact spells_closeObject
      | cons f fs =>
        have hf := hfields f List.mem_cons_self
        exact spells_field hf.1 hf.2
          (spells_moreFieldsText fun g hg => hfields g (List.mem_cons_of_mem _ hg))
    exact hbody.mark (by decide) fun _ => rfl

/-! ## Tokens to values -/

/-- Over its tokens, the machine finishes the value. -/
def Finishes (j : Json) : Prop :=
  ∀ stack ts, steps (.value, stack) (toks j ++ ts) = steps (.finished j, stack) ts

/-- Where an array may still be empty, a value is read as any value. -/
theorem steps_firstItem (j : Json) (stack : List Frame) (ts : List Token) :
    steps (.firstItem, stack) (toks j ++ ts) = steps (.value, stack) (toks j ++ ts) := by
  cases j <;> rfl

theorem steps_moreItemsToks {items : List Json} (h : ∀ j ∈ items, Finishes j) (j : Json)
    (done : List Json) (stack : List Frame) (ts : List Token) :
    steps (.finished j, .array done :: stack) (moreItemsToks items ++ ts) =
      steps (.finished (.array ((j :: done).reverse ++ items)), stack) ts := by
  induction items generalizing j done with
  | nil =>
    rw [List.append_nil]
    rfl
  | cons i is ih =>
    have hi := h i List.mem_cons_self (.array (j :: done) :: stack) (moreItemsToks is ++ ts)
    have his := ih (fun l hl => h l (List.mem_cons_of_mem _ hl)) i (j :: done)
    rw [List.reverse_cons, List.append_assoc] at his
    rw [moreItemsToks, List.cons_append, List.append_assoc]
    exact hi.trans his

theorem steps_moreFieldsToks {fields : List (Option String × Json)}
    (h : ∀ f ∈ fields, Finishes f.2) (k : Option String) (j : Json)
    (done : List (Option String × Json)) (stack : List Frame) (ts : List Token) :
    steps (.finished j, .object done k :: stack) (moreFieldsToks fields ++ ts) =
      steps (.finished (.object (((k, j) :: done).reverse ++ fields)), stack) ts := by
  induction fields generalizing k j done with
  | nil =>
    rw [List.append_nil]
    rfl
  | cons f fs ih =>
    have hf := h f List.mem_cons_self (.object ((k, j) :: done) f.1 :: stack)
      (moreFieldsToks fs ++ ts)
    have hfs := ih (fun g hg => h g (List.mem_cons_of_mem _ hg)) f.1 f.2 ((k, j) :: done)
    rw [List.reverse_cons, List.append_assoc] at hfs
    rw [moreFieldsToks, List.cons_append, List.cons_append, List.cons_append, List.append_assoc]
    exact hf.trans hfs

/-- The machine reads a value from its tokens, whatever is open around it. -/
theorem steps_toks (j : Json) : Finishes j := by
  induction j using Json.induct with
  | null => exact fun _ _ => rfl
  | bool b => exact fun _ _ => rfl
  | number x => exact fun _ _ => rfl
  | string s => exact fun _ _ => rfl
  | array items ih =>
    intro stack ts
    cases items with
    | nil => rfl
    | cons j js =>
      have hj := ih j List.mem_cons_self (.array [] :: stack) (moreItemsToks js ++ ts)
      have hjs := steps_moreItemsToks (fun i hi => ih i (List.mem_cons_of_mem _ hi)) j [] stack ts
      rw [toks, itemsToks, List.cons_append, List.append_assoc]
      exact (steps_firstItem j _ _).trans (hj.trans hjs)
  | object fields ih =>
    intro stack ts
    cases fields with
    | nil => rfl
    | cons f fs =>
      have hf := ih f List.mem_cons_self (.object [] f.1 :: stack) (moreFieldsToks fs ++ ts)
      have hfs := steps_moreFieldsToks (fun g hg => ih g (List.mem_cons_of_mem _ hg)) f.1 f.2 []
        stack ts
      rw [toks, fieldsToks, List.cons_append, List.cons_append, List.cons_append,
        List.append_assoc]
      exact hf.trans hfs

theorem ofTokens?_toks (j : Json) : ofTokens? (toks j) = some j := by
  have h := steps_toks j [] []
  rw [List.append_nil] at h
  rw [ofTokens?, h]
  rfl

/-- The bytes of a printable value's text hold that value. -/
theorem parse?_encode_text {j : Json} (h : j.IsPrintable) :
    parse? (Utf8.encode (text j)) = some j := by
  rw [parse?, Utf8.symbols_encode, tokens_of_spells (spells_text h), Option.bind_some,
    ofTokens?_toks]

end PeerRecords.Json
