import PeerRecords.PeerId

/-
  Finite maps whose keys are listed in the order of their text.
  The order is part of the type. `get?_insert` says what an insertion does to look-ups.
-/

namespace PeerRecords

/-- Keys that are told apart and ordered by a text. -/
class TextKey (κ : Type) where
  text : κ → String
  text_injective : ∀ {a b : κ}, text a = text b → a = b

instance : TextKey String := ⟨id, id⟩

instance : TextKey PeerId where
  text := PeerId.name
  text_injective {a b} h := by
    cases a
    cases b
    exact congrArg PeerId.mk h

/-- A finite map; its entries are in the order of their keys' texts. -/
structure Table (κ β : Type) [TextKey κ] where
  entries : List (κ × β) := []
  sorted : entries.Pairwise (fun p q => TextKey.text p.1 < TextKey.text q.1) := by simp

namespace Table

variable {κ β γ : Type} [TextKey κ]

/-- The table without entries. -/
def empty : Table κ β := {}

instance : Inhabited (Table κ β) := ⟨empty⟩

/-- The entries with the value of one key replaced, or put in before the first greater key. -/
def insertEntry (k : κ) (v : β) : List (κ × β) → List (κ × β)
  | [] => [(k, v)]
  | p :: ps =>
    if TextKey.text k = TextKey.text p.1 then (k, v) :: ps
    else if TextKey.text k < TextKey.text p.1 then (k, v) :: p :: ps
    else p :: insertEntry k v ps

theorem mem_insertEntry {k : κ} {v : β} {ps : List (κ × β)} {q : κ × β}
    (h : q ∈ insertEntry k v ps) : q = (k, v) ∨ q ∈ ps := by
  induction ps with
  | nil => simpa [insertEntry] using h
  | cons p ps ih =>
    unfold insertEntry at h
    split at h
    · rcases List.mem_cons.1 h with h | h
      · exact .inl h
      · exact .inr (List.mem_cons_of_mem _ h)
    · split at h
      · rcases List.mem_cons.1 h with h | h
        · exact .inl h
        · exact .inr h
      · rcases List.mem_cons.1 h with h | h
        · exact .inr (h ▸ List.mem_cons_self)
        · exact (ih h).imp id (List.mem_cons_of_mem _)

theorem sorted_insertEntry (k : κ) (v : β) {ps : List (κ × β)}
    (h : ps.Pairwise fun p q => TextKey.text p.1 < TextKey.text q.1) :
    (insertEntry k v ps).Pairwise fun p q => TextKey.text p.1 < TextKey.text q.1 := by
  induction ps with
  | nil => simp [insertEntry]
  | cons p ps ih =>
    have hp := List.pairwise_cons.1 h
    unfold insertEntry
    split
    · rename_i he
      exact List.pairwise_cons.2 ⟨fun q hq => he ▸ hp.1 q hq, hp.2⟩
    · rename_i hne
      split
      · rename_i hlt
        refine List.pairwise_cons.2 ⟨fun q hq => ?_, h⟩
        rcases List.mem_cons.1 hq with rfl | hq
        · exact hlt
        · exact String.lt_trans hlt (hp.1 q hq)
      · rename_i hnlt
        refine List.pairwise_cons.2 ⟨fun q hq => ?_, ih hp.2⟩
        rcases mem_insertEntry hq with rfl | hq
        · have hle := String.not_lt.1 hnlt
          by_cases hlt : TextKey.text p.1 < TextKey.text k
          · exact hlt
          · exact absurd (String.le_antisymm (String.not_lt.1 hlt) hle) hne
        · exact hp.1 q hq

/-- The table with one key's value set. -/
def insert (t : Table κ β) (k : κ) (v : β) : Table κ β :=
  ⟨insertEntry k v t.entries, sorted_insertEntry k v t.sorted⟩

/-- The value of a key. -/
def get? (t : Table κ β) (k : κ) : Option β :=
  (t.entries.find? fun p => TextKey.text p.1 == TextKey.text k).map (·.2)

/-- The keys in order. -/
def keys (t : Table κ β) : List κ := t.entries.map (·.1)

/-- The number of keys. -/
def size (t : Table κ β) : Nat := t.entries.length

/-- Whether there are no keys. -/
def isEmpty (t : Table κ β) : Bool := t.entries.isEmpty

/-- The table of what a function makes of the values, without the keys where it makes nothing. -/
def filterMap (t : Table κ β) (f : β → Option γ) : Table κ γ :=
  ⟨t.entries.filterMap fun p => (f p.2).map fun v => (p.1, v), by
    refine List.Pairwise.filterMap _ ?_ t.sorted
    intro p q hpq p' hp' q' hq'
    obtain ⟨_, _, rfl⟩ := Option.map_eq_some_iff.1 hp'
    obtain ⟨_, _, rfl⟩ := Option.map_eq_some_iff.1 hq'
    exact hpq⟩

/-- The table of what a function makes of the values. -/
def map (t : Table κ β) (f : β → γ) : Table κ γ := t.filterMap fun v => some (f v)

theorem get?_insert (t : Table κ β) (k : κ) (v : β) (j : κ) :
    (t.insert k v).get? j = if TextKey.text k = TextKey.text j then some v else t.get? j := by
  obtain ⟨ps, h⟩ := t
  simp only [insert, get?]
  clear h
  induction ps with
  | nil => by_cases he : TextKey.text k = TextKey.text j <;> simp [insertEntry, he]
  | cons p ps ih =>
    unfold insertEntry
    split
    · rename_i he
      by_cases hj : TextKey.text k = TextKey.text j
      · simp [hj]
      · simp [hj, ← he]
    · rename_i hne
      split
      · by_cases hj : TextKey.text k = TextKey.text j <;> simp [hj]
      · by_cases hp : TextKey.text p.1 = TextKey.text j
        · have hj : TextKey.text k ≠ TextKey.text j := fun h => hne (h.trans hp.symm)
          simp [hp, hj]
        · simpa [List.find?_cons, hp] using ih

end Table

end PeerRecords
