import PeerRecords.Proofs.Node.Lookup

/-
  Dicts are ordered maps under structural equality.
  A history of operations leaves something at a key or nothing (`held?`): the value that was last
  inserted at an equal key, unless the key was removed since, together with the key as it was first
  inserted after its last removal, and when that was. It is told key by key, without a list of
  entries. A dict tracks this (`Tracks`): its entries are what is held, in the order in which the
  keys came; one operation keeps that (`Tracks.act`), and so does a run (`Tracks.run`). An operation
  at a text finds the entry that one at the text's node finds (`isText_eq_isKey`), and taking the
  plain form of a dict changes what stands in an entry, not what it is equal to (`IsFormOf`).

  Main statement: `run_is_ordered_map`.
-/

namespace PeerRecords

open Node

/-! ## Operations on entries -/

namespace Entries

variable {l v : Node} {ps : List (Node × Node)}

/-- There is one entry at a key. -/
theorem Keyed.eq_of_eqv (hps : Keyed ps) {p q : Node × Node} (hp : p ∈ ps) (hq : q ∈ ps)
    {k : Node} (hk : k.WellFormed) (hpk : p.1.eqv k = true) (hqk : q.1.eqv k = true) : p = q := by
  induction ps with
  | nil => exact absurd hp List.not_mem_nil
  | cons x ps ih =>
    obtain rfl | hpx := List.mem_cons.1 hp
    · obtain rfl | hqx := List.mem_cons.1 hq
      · rfl
      · rw [hps.forall_tail_ne hk hpk q hqx] at hqk
        cases hqk
    · obtain rfl | hqx := List.mem_cons.1 hq
      · rw [hps.forall_tail_ne hk hqk p hpx] at hpk
        cases hpk
      · exact ih (keyed_cons_iff.1 hps).2 hpx hqx

/-- A key that is there keeps its place and takes the value. -/
theorem put_of_exists (hps : Keyed ps) (hl : l.WellFormed) (h : ∃ p ∈ ps, p.1.eqv l = true) :
    put (Dict.isKey l) l v ps = ps.map fun p => if p.1.eqv l then (p.1, v) else p := by
  induction ps with
  | nil =>
    obtain ⟨p, hp, _⟩ := h
    exact absurd hp List.not_mem_nil
  | cons p ps ih =>
    rw [put, List.map_cons, Dict.isKey]
    cases hp : p.1.eqv l with
    | true =>
      have hrest : ps.map (fun q => if q.1.eqv l then (q.1, v) else q) = ps := by
        refine (List.map_congr_left fun q hq => ?_).trans (List.map_id ps)
        rw [hps.forall_tail_ne hl hp q hq]
        rfl
      rw [if_pos rfl, if_pos rfl, hrest]
    | false =>
      obtain ⟨q, hq, hql⟩ := h
      obtain rfl | hq := List.mem_cons.1 hq
      · rw [hp] at hql
        cases hql
      · rw [if_neg Bool.false_ne_true, if_neg Bool.false_ne_true,
          ih (keyed_cons_iff.1 hps).2 ⟨q, hq, hql⟩]

/-- Taking out a key leaves the entries at other keys. -/
theorem takeOut_eq_without (hps : Keyed ps) (hl : l.WellFormed) :
    takeOut (Dict.isKey l) ps = without l ps := by
  induction ps with
  | nil => rfl
  | cons p ps ih =>
    rw [takeOut, List.eraseP_cons, without_cons, Dict.isKey]
    cases hp : p.1.eqv l with
    | true =>
      rw [if_pos rfl, cond_true, without_of_forall (hps.forall_tail_ne hl hp)]
    | false =>
      rw [if_neg Bool.false_ne_true, cond_false, ← ih (keyed_cons_iff.1 hps).2]
      rfl

end Entries

namespace Dict

/-- A key is a text just if it is equal to the text's node. -/
theorem isText_eq_isKey (s : String) : isText s = isKey (ofString s) := by
  funext k
  rw [isText, isKey, Bool.eq_iff_iff, eqv, disassemble_of_isPlain (n := ofString s) rfl,
    same_text_iff rfl, string?_disassemble, beq_iff_eq]

theorem getText?_eq_get? (d : Dict) (s : String) : d.getText? s = d.get? (ofString s) := by
  rw [getText?, get?, isText_eq_isKey]

theorem getThenEraseText_eq (d : Dict) (s : String) :
    d.getThenEraseText s = d.getThenErase (ofString s) := by
  rw [getThenEraseText, getThenErase, getText?_eq_get?, eraseText, erase, isText_eq_isKey]

/-- An insertion at a key that is there changes no key. -/
theorem map_fst_insert {d : Dict} {k : Node} (h : d.contains k = true) (v : Node) :
    (d.insert k v).entries.map (·.1) = d.entries.map (·.1) := by
  obtain ⟨w, hw⟩ := Option.isSome_iff_exists.1 h
  obtain ⟨p, hp, hpk, _⟩ := Entries.mem_of_at? hw
  rw [insert, Entries.map_fst_put, if_pos (List.any_eq_true.2 ⟨p, hp, hpk⟩)]

/-! ## Runs of operations -/

/-- An operation on a dict. -/
inductive Step where
  | insert (key value : Node)
  | erase (key : Node)
  | eraseText (text : String)
  /-- Since no two entries are the same, a test that remembers those before chooses no other way. -/
  | filter (test : Node × Node → Bool)
  | disassemble

/-- The key that an operation names. -/
def Step.key? : Step → Option Node
  | .insert key _ | .erase key => some key
  | .eraseText text => some (ofString text)
  | .filter _ | .disassemble => none

/-- The key that an operation names is well-formed. -/
def Step.NamesWellFormed (a : Step) : Prop := ∀ k ∈ a.key?, k.WellFormed

instance (a : Step) : Decidable a.NamesWellFormed :=
  inferInstanceAs (Decidable (∀ k ∈ a.key?, k.WellFormed))

/-- What an operation answers, and the dict after it. -/
def act (d : Dict) : Step → Option Node × Dict
  | .insert key value => d.getThenInsert key value
  | .erase key => d.getThenErase key
  | .eraseText text => d.getThenEraseText text
  | .filter test => (none, d.filter test)
  | .disassemble => (none, d.disassemble)

/-- The dict after a run of operations. -/
def run (d : Dict) (steps : List Step) : Dict := steps.foldl (fun d a => (d.act a).2) d

/-! ## What a history leaves at a key -/

/-- What is at a key after a history of operations. -/
structure Held where
  /-- The number of operations before the one that first inserted the key since its last removal. -/
  since : Nat
  /-- The key as it was inserted then. -/
  key : Node
  /-- The value that was inserted last. -/
  value : Node

/-- Whether an operation on `d` removes the key `k`: an equal key is taken out, or the entry at the
key does not pass. -/
def Step.removes (d : Dict) (k : Node) : Step → Bool
  | .insert _ _ | .disassemble => false
  | .erase l => l.eqv k
  | .eraseText s => (ofString s).eqv k
  | .filter test => d.entries.any fun p => p.1.eqv k && !test p

/-- What is at `k` after the operation number `n`, on `d`, if `held` was there before. -/
def Held.next (k : Node) (d : Dict) (n : Nat) (held : Option Held) : Step → Option Held
  | .insert l v =>
    if l.eqv k then some (held.elim ⟨n, l, v⟩ fun h => { h with value := v }) else held
  | a => if a.removes d k then none else held

/-- What is at `k` after a run on `d`, if `held` was there after `n` operations. -/
def heldFrom (k : Node) (d : Dict) (n : Nat) (held : Option Held) : List Step → Option Held
  | [] => held
  | a :: steps => heldFrom k (d.act a).2 (n + 1) (Held.next k d n held a) steps

/-- What is at a key after a run on an empty dict. -/
def held? (tag : String) (steps : List Step) (k : Node) : Option Held :=
  heldFrom k (empty tag) 0 none steps

end Dict

/-- The node as it was given, or its plain form. -/
def Node.IsFormOf (w v : Node) : Prop := w = v ∨ w = v.disassemble

theorem Node.IsFormOf.disassemble {w v : Node} (h : w.IsFormOf v) : w.disassemble.IsFormOf v := by
  obtain rfl | rfl := h
  · exact .inr rfl
  · exact .inr (disassemble_disassemble v)

theorem Node.IsFormOf.eqv {w v : Node} (h : w.IsFormOf v) (hv : v.eqv v = true) :
    w.eqv v = true := by
  obtain rfl | rfl := h
  · exact hv
  · rw [eqv_disassemble_left]
    exact hv

/-! ## Dicts that track a history -/

namespace Dict

/-- What is held at the key of the one entry has been there for longer than what is held at the key
of the other. -/
def Precedes (held : Node → Option Held) (p q : Node × Node) : Prop :=
  ∀ k l : Node, k.WellFormed → l.WellFormed → p.1.eqv k = true → q.1.eqv l = true →
    ∀ h ∈ held k, ∀ h' ∈ held l, h.since < h'.since

/-- The entries are what is held at each key after `n` operations, in the order in which the keys
came. -/
structure Tracks (d : Dict) (n : Nat) (held : Node → Option Held) : Prop where
  keyed : Entries.Keyed d.entries
  shown : ∀ p ∈ d.entries, ∀ k : Node, k.WellFormed → p.1.eqv k = true →
    ∃ h, held k = some h ∧ p.1.IsFormOf h.key ∧ p.2.IsFormOf h.value ∧ h.since < n
  absent : ∀ k : Node, k.WellFormed → (∀ p ∈ d.entries, p.1.eqv k = false) → held k = none
  ordered : d.entries.Pairwise (Precedes held)

namespace Tracks

variable {d : Dict} {n : Nat} {held held' : Node → Option Held}

theorem start (tag : String) : Tracks (empty tag) 0 fun _ => none :=
  ⟨⟨List.forall_mem_nil _, rfl⟩, fun _ hp => absurd hp List.not_mem_nil, fun _ _ _ => rfl, .nil⟩

theorem succ (h : Tracks d n held) : Tracks d (n + 1) held :=
  ⟨h.keyed, fun p hp k hk hpk => (h.shown p hp k hk hpk).imp fun _ hh =>
    ⟨hh.1, hh.2.1, hh.2.2.1, Nat.lt_succ_of_lt hh.2.2.2⟩, h.absent, h.ordered⟩

/-- What is looked up at a key is what is held there. -/
theorem at?_rel (h : Tracks d n held) {k : Node} (hk : k.WellFormed) :
    Option.Rel IsFormOf (Entries.at? k d.entries) ((held k).map (·.value)) := by
  cases hat : Entries.at? k d.entries with
  | none =>
    rw [h.absent k hk (Entries.at?_eq_none_iff.1 hat)]
    exact .none
  | some w =>
    obtain ⟨p, hp, hpk, rfl⟩ := Entries.mem_of_at? hat
    obtain ⟨x, hx, _, hvalue, _⟩ := h.shown p hp k hk hpk
    rw [hx]
    exact .some hvalue

/-- An operation answers with what is held at its key. -/
theorem answer_rel (h : Tracks d n held) {a : Step} (ha : a.NamesWellFormed) :
    Option.Rel IsFormOf (d.act a).1 ((a.key?.bind held).map (·.value)) := by
  cases a with
  | insert k v => exact h.at?_rel (ha k rfl)
  | erase k => exact h.at?_rel (ha k rfl)
  | eraseText s =>
    rw [Dict.act, getThenEraseText_eq]
    exact h.at?_rel (ha _ rfl)
  | filter test => exact .none
  | disassemble => exact .none

/-- Entries that do not pass a test are removed, and what is held at their keys. -/
theorem filter (h : Tracks d n held) {keep : Node × Node → Bool}
    (hheld : ∀ k : Node, k.WellFormed →
      held' k = if d.entries.any fun p => p.1.eqv k && !keep p then none else held k) :
    Tracks (d.filter keep) n held' := by
  have hkept : ∀ k : Node, k.WellFormed → ∀ x ∈ held' k, x ∈ held k := by
    intro k hk x hx
    rw [hheld k hk] at hx
    split at hx
    · cases hx
    · exact hx
  refine ⟨h.keyed.sublist List.filter_sublist, fun p hp k hk hpk => ?_, fun k hk hnone => ?_, ?_⟩
  · obtain ⟨hp, hpass⟩ := List.mem_filter.1 hp
    obtain ⟨x, hx, hshown⟩ := h.shown p hp k hk hpk
    refine ⟨x, ?_, hshown⟩
    -- the entry at the key is the only one there, and it passes
    have hnone : (d.entries.any fun q => q.1.eqv k && !keep q) = false := by
      refine List.any_eq_false.2 fun q hq hqk => ?_
      obtain ⟨hqk, hfail⟩ := Bool.and_eq_true_iff.1 hqk
      rw [h.keyed.eq_of_eqv hq hp hk hqk hpk, hpass] at hfail
      cases hfail
    rw [hheld k hk, hnone, if_neg Bool.false_ne_true, hx]
  · rw [hheld k hk]
    split
    · rfl
    · rename_i hany
      refine h.absent k hk fun p hp => ?_
      by_contra hpk
      have hpk : p.1.eqv k = true := Bool.eq_true_of_not_eq_false hpk
      cases hpass : keep p with
      | true =>
        rw [hnone p (List.mem_filter.2 ⟨hp, hpass⟩)] at hpk
        cases hpk
      | false => exact hany (List.any_eq_true.2 ⟨p, hp, by rw [hpk, hpass]; rfl⟩)
  · refine (h.ordered.sublist List.filter_sublist).imp fun hpq k l hk hl hpk hql x hx y hy => ?_
    exact hpq k l hk hl hpk hql x (hkept k hk x hx) y (hkept l hl y hy)

/-- A key that is taken out is a key that does not pass. -/
theorem erase (h : Tracks d n held) {l : Node} (hl : l.WellFormed) :
    Tracks (d.erase l) n fun k => if l.eqv k then none else held k := by
  rw [Dict.erase, Entries.takeOut_eq_without h.keyed hl]
  refine h.filter fun k hk => ?_
  by_cases hany : (d.entries.any fun p => p.1.eqv k && !!p.1.eqv l) = true
  · obtain ⟨p, hp, hboth⟩ := List.any_eq_true.1 hany
    rw [Bool.not_not, Bool.and_eq_true] at hboth
    have hlk : l.eqv k = true := by
      rw [← eqv_congr_left hk (h.keyed.wellFormed p hp) hl hboth.2]
      exact hboth.1
    rw [if_pos hlk, if_pos hany]
  · rw [if_neg hany]
    split
    · rename_i hlk
      refine (h.absent k hk fun p hp => ?_).symm
      by_contra hpk
      have hpk : p.1.eqv k = true := Bool.eq_true_of_not_eq_false hpk
      have hpl : p.1.eqv l = true := by
        rw [eqv_congr_right (h.keyed.wellFormed p hp) hl hk hlk]
        exact hpk
      exact hany (List.any_eq_true.2 ⟨p, hp, by rw [hpk, hpl]; rfl⟩)
    · rfl

/-- The plain form of a dict holds at each key what the dict did. -/
theorem disassemble (h : Tracks d n held) : Tracks d.disassemble n held := by
  have hentries : d.disassemble.entries =
      d.entries.map fun p => (p.1.disassemble, p.2.disassemble) := disassembleEntries_eq_map _
  refine ⟨h.keyed.disassembleEntries, ?_, fun k hk hnone => h.absent k hk fun p hp => ?_, ?_⟩
  · rw [hentries]
    refine List.forall_mem_map.2 fun p hp k hk hpk => ?_
    obtain ⟨x, hx, hkey, hvalue, hsince⟩ :=
      h.shown p hp k hk (eqv_disassemble_left p.1 k ▸ hpk)
    exact ⟨x, hx, hkey.disassemble, hvalue.disassemble, hsince⟩
  · rw [hentries] at hnone
    rw [← eqv_disassemble_left]
    exact List.forall_mem_map.1 hnone p hp
  · rw [hentries, List.pairwise_map]
    refine h.ordered.imp fun hpq k l hk hl hpk hql => hpq k l hk hl ?_ ?_
    · exact eqv_disassemble_left _ k ▸ hpk
    · exact eqv_disassemble_left _ l ▸ hql

/-- A value that is inserted at a key that is there takes the place of the one before. -/
theorem overwrite (h : Tracks d n held) {l v : Node} (hl : l.WellFormed)
    (hthere : ∃ p ∈ d.entries, p.1.eqv l = true) :
    Tracks (d.insert l v) n fun k => Held.next k d n (held k) (.insert l v) := by
  have hentries : (d.insert l v).entries =
      d.entries.map fun p => if p.1.eqv l then (p.1, v) else p :=
    Entries.put_of_exists h.keyed hl hthere
  have hfst : ∀ p : Node × Node, (if p.1.eqv l then (p.1, v) else p).1 = p.1 := by
    intro p
    split <;> rfl
  have hsince : ∀ k : Node, k.WellFormed →
      ∀ x ∈ Held.next k d n (held k) (.insert l v), ∃ y ∈ held k, y.since = x.since := by
    intro k hk x hx
    rw [Held.next] at hx
    split at hx
    · rename_i hlk
      obtain ⟨p, hp, hpl⟩ := hthere
      rw [eqv_congr_right (h.keyed.wellFormed p hp) hl hk hlk] at hpl
      obtain ⟨y, hy, _⟩ := h.shown p hp k hk hpl
      rw [hy] at hx
      cases hx
      exact ⟨y, hy, rfl⟩
    · exact ⟨x, hx, rfl⟩
  refine ⟨⟨?_, ?_⟩, ?_, fun k hk hnone => ?_, ?_⟩
  · rw [hentries]
    exact List.forall_mem_map.2 fun p hp => (hfst p).symm ▸ h.keyed.wellFormed p hp
  · have hkeys : (d.insert l v).entries.map (·.1) = d.entries.map (·.1) := by
      rw [hentries, List.map_map]
      exact List.map_congr_left fun p _ => hfst p
    rw [hkeys]
    exact h.keyed.distinct
  · rw [hentries]
    refine List.forall_mem_map.2 fun p hp k hk hpk => ?_
    rw [hfst] at hpk ⊢
    obtain ⟨x, hx, hkey, hvalue, hlt⟩ := h.shown p hp k hk hpk
    rw [Held.next, hx]
    cases hlk : l.eqv k with
    | true =>
      have hpl : p.1.eqv l = true := by
        rw [eqv_congr_right (h.keyed.wellFormed p hp) hl hk hlk]
        exact hpk
      rw [if_pos rfl, if_pos hpl]
      exact ⟨_, rfl, hkey, .inl rfl, hlt⟩
    | false =>
      have hpl : p.1.eqv l = false := by
        rw [eqv_congr_left hl (h.keyed.wellFormed p hp) hk hpk, eqv_comm hk hl]
        exact hlk
      rw [if_neg Bool.false_ne_true, hpl, if_neg Bool.false_ne_true]
      exact ⟨x, rfl, hkey, hvalue, hlt⟩
  · rw [hentries] at hnone
    have hnone : ∀ p ∈ d.entries, p.1.eqv k = false := fun p hp =>
      hfst p ▸ List.forall_mem_map.1 hnone p hp
    obtain ⟨p, hp, hpl⟩ := hthere
    have hlk : l.eqv k = false := by
      rw [← eqv_congr_left hk (h.keyed.wellFormed p hp) hl hpl]
      exact hnone p hp
    rw [Held.next, hlk, if_neg Bool.false_ne_true]
    exact h.absent k hk hnone
  · rw [hentries, List.pairwise_map]
    refine h.ordered.imp fun hpq k k' hk hk' hpk hqk x hx y hy => ?_
    rw [hfst] at hpk hqk
    obtain ⟨x', hx', hxsince⟩ := hsince k hk x hx
    obtain ⟨y', hy', hysince⟩ := hsince k' hk' y hy
    rw [← hxsince, ← hysince]
    exact hpq k k' hk hk' hpk hqk x' hx' y' hy'

/-- A key that is not there is held from now on, after all the others. -/
theorem append (h : Tracks d n held) {l v : Node} (hl : l.WellFormed)
    (hnone : ∀ p ∈ d.entries, p.1.eqv l = false) :
    Tracks (d.insert l v) (n + 1) fun k => Held.next k d n (held k) (.insert l v) := by
  have hentries : (d.insert l v).entries = d.entries ++ [(l, v)] :=
    Entries.put_of_forall_not hnone
  have hfresh : ∀ k : Node, k.WellFormed → l.eqv k = true →
      Held.next k d n (held k) (.insert l v) = some ⟨n, l, v⟩ := by
    intro k hk hlk
    have hk : held k = none := h.absent k hk fun p hp => by
      rw [← eqv_congr_right (h.keyed.wellFormed p hp) hl hk hlk]
      exact hnone p hp
    rw [Held.next, if_pos hlk, hk]
    rfl
  have hother : ∀ p ∈ d.entries, ∀ k : Node, k.WellFormed → p.1.eqv k = true →
      Held.next k d n (held k) (.insert l v) = held k := by
    intro p hp k hk hpk
    have hlk : l.eqv k = false := by
      rw [eqv_comm hl hk, ← eqv_congr_left hl (h.keyed.wellFormed p hp) hk hpk]
      exact hnone p hp
    rw [Held.next, hlk, if_neg Bool.false_ne_true]
  refine ⟨⟨?_, ?_⟩, ?_, fun k hk habsent => ?_, ?_⟩
  · rw [hentries]
    exact List.forall_mem_append.2 ⟨h.keyed.wellFormed, List.forall_mem_singleton.2 hl⟩
  · rw [hentries, List.map_append]
    exact areDistinct_append_singleton.2 ⟨h.keyed.distinct, List.forall_mem_map.2 hnone⟩
  · rw [hentries]
    refine List.forall_mem_append.2 ⟨fun p hp k hk hpk => ?_,
      List.forall_mem_singleton.2 fun k hk hlk => ?_⟩
    · obtain ⟨x, hx, hkey, hvalue, hlt⟩ := h.shown p hp k hk hpk
      exact ⟨x, (hother p hp k hk hpk).trans hx, hkey, hvalue, Nat.lt_succ_of_lt hlt⟩
    · exact ⟨_, hfresh k hk hlk, .inl rfl, .inl rfl, Nat.lt_succ_self n⟩
  · rw [hentries] at habsent
    obtain ⟨hold, hnew⟩ := List.forall_mem_append.1 habsent
    have hlk : l.eqv k = false := hnew (l, v) (List.mem_singleton_self _)
    rw [Held.next, hlk, if_neg Bool.false_ne_true]
    exact h.absent k hk hold
  · rw [hentries, List.pairwise_append]
    refine ⟨?_, List.pairwise_singleton _ _, fun p hp => List.forall_mem_singleton.2 ?_⟩
    · refine h.ordered.imp_of_mem fun hp hq hpq k k' hk hk' hpk hqk x hx y hy => ?_
      beta_reduce at hx hy
      rw [hother _ hp k hk hpk] at hx
      rw [hother _ hq k' hk' hqk] at hy
      exact hpq k k' hk hk' hpk hqk x hx y hy
    · intro k k' hk hk' hpk hlk' x hx y hy
      obtain ⟨z, hz, _, _, hlt⟩ := h.shown p hp k hk hpk
      beta_reduce at hx hy
      rw [hother p hp k hk hpk, hz] at hx
      rw [hfresh k' hk' hlk'] at hy
      cases hx
      cases hy
      exact hlt

/-- One operation: what the dict shows afterwards is what is held afterwards. -/
theorem act (h : Tracks d n held) {a : Step} (ha : a.NamesWellFormed) :
    Tracks (d.act a).2 (n + 1) fun k => Held.next k d n (held k) a := by
  cases a with
  | insert l v =>
    have hl : l.WellFormed := ha l rfl
    by_cases hthere : ∃ p ∈ d.entries, p.1.eqv l = true
    · exact (h.overwrite hl hthere).succ
    · refine h.append hl fun p hp => ?_
      by_contra hpl
      exact hthere ⟨p, hp, Bool.eq_true_of_not_eq_false hpl⟩
  | erase l => exact (h.erase (ha l rfl)).succ
  | eraseText s =>
    rw [Dict.act, getThenEraseText_eq]
    exact (h.erase (ha _ rfl)).succ
  | filter test => exact (h.filter fun k _ => rfl).succ
  | disassemble => exact h.disassemble.succ

/-- A run of operations. -/
theorem run (h : Tracks d n held) {steps : List Step} (hsteps : ∀ a ∈ steps, a.NamesWellFormed) :
    Tracks (d.run steps) (n + steps.length) fun k => heldFrom k d n (held k) steps := by
  induction steps generalizing d n held with
  | nil => exact h
  | cons a steps ih =>
    obtain ⟨ha, hsteps⟩ := List.forall_mem_cons.1 hsteps
    have hrun := ih (h.act ha) hsteps
    rw [Nat.add_assoc, Nat.add_comm 1] at hrun
    exact hrun

/-- A key is there just if something is held at it. -/
theorem isSome_held (h : Tracks d n held) {k : Node} (hk : k.WellFormed) :
    (held k).isSome = k.isIn (d.entries.map (·.1)) := by
  cases hin : k.isIn (d.entries.map (·.1)) with
  | true =>
    obtain ⟨l, hl, hlk⟩ := List.any_eq_true.1 hin
    obtain ⟨p, hp, rfl⟩ := List.mem_map.1 hl
    obtain ⟨x, hx, _⟩ := h.shown p hp k hk hlk
    rw [hx]
    rfl
  | false =>
    rw [h.absent k hk (List.forall_mem_map.1 (isIn_eq_false.1 hin))]
    rfl

/-- The entries are as many as there are keys at which something is held. -/
theorem size_eq (h : Tracks d n held) {ks : List Node} (hks : ∀ k ∈ ks, k.WellFormed)
    (hdistinct : areDistinct ks = true)
    (hheld : ∀ k : Node, k.WellFormed → (held k).isSome = k.isIn ks) : d.size = ks.length := by
  have hkeys : (Node.set none "" (d.entries.map (·.1))).WellFormed :=
    wellFormed_iff_children.2 ⟨h.keyed.distinct, List.forall_mem_map.2 h.keyed.wellFormed⟩
  have hset : (Node.set none "" ks).WellFormed := wellFormed_iff_children.2 ⟨hdistinct, hks⟩
  have heqv := eqv_set_of_isIn hkeys hset fun k hk => (h.isSome_held hk).symm.trans (hheld k hk)
  rw [eqv_iff_alike hkeys hset, Node.disassemble, Node.disassemble, alike_set] at heqv
  have hlength := heqv.2.length_eq
  rwa [disassembleAll_eq_map, disassembleAll_eq_map, List.length_map, List.length_map,
    List.length_map] at hlength

end Tracks

section

variable {o : Option Node} {held : Option Held} (h : Option.Rel IsFormOf o (held.map (·.value)))
include h

theorem sameValue_of_isFormOf (hheld : ∀ x ∈ held, x.value.WellFormed) :
    Entries.SameValue o (held.map (·.value)) := by
  cases held with
  | none =>
    cases h
    exact .none
  | some x =>
    cases h with
    | some hform => exact .some (hform.eqv (eqv_refl (hheld x rfl).distinctKeys))

theorem isSome_of_isFormOf : o.isSome = held.isSome := by
  cases held <;> cases h <;> rfl

end

theorem tag_run (d : Dict) (steps : List Step) : (d.run steps).tag = d.tag := by
  induction steps generalizing d with
  | nil => rfl
  | cons a steps ih =>
    have hact : (d.act a).2.tag = d.tag := by cases a <;> rfl
    exact (ih (d.act a).2).trans hact

/-- After any run of operations that name well-formed keys, an empty dict has kept its tag and
repeats no key. At each key it has the value that was last inserted there since the last removal, as
it was inserted or in plain form, and nothing if there is none; a text is as good as its node. An
operation answers with what was held at its key. There are as many entries as keys at which
something is held, in the order in which the keys were first inserted since their last removal and
under the keys of then, and an insertion at a key that is there changes no key. -/
theorem run_is_ordered_map (tag : String) {steps : List Step}
    (hsteps : ∀ a ∈ steps, a.NamesWellFormed) :
    let d := (empty tag).run steps
    let held := held? tag steps
    d.tag = tag ∧
    areDistinct (d.entries.map (·.1)) = true ∧
    (∀ k : Node, k.WellFormed →
      Option.Rel IsFormOf (d.get? k) ((held k).map (·.value)) ∧
      ((∀ h ∈ held k, h.value.WellFormed) →
        Entries.SameValue (d.get? k) ((held k).map (·.value))) ∧
      d.contains k = (held k).isSome) ∧
    (∀ s, d.getText? s = d.get? (ofString s) ∧
      d.getThenEraseText s = d.getThenErase (ofString s)) ∧
    (∀ a : Step, a.NamesWellFormed →
      Option.Rel IsFormOf (d.act a).1 ((a.key?.bind held).map (·.value))) ∧
    (∀ ks : List Node, (∀ k ∈ ks, k.WellFormed) → areDistinct ks = true →
      (∀ k : Node, k.WellFormed → (held k).isSome = k.isIn ks) → d.size = ks.length) ∧
    (∀ p ∈ d.entries, ∃ h ∈ held p.1, p.1.IsFormOf h.key) ∧
    d.entries.Pairwise (fun p q => ∀ h ∈ held p.1, ∀ h' ∈ held q.1, h.since < h'.since) ∧
    ∀ k v : Node, d.contains k = true →
      (d.insert k v).entries.map (·.1) = d.entries.map (·.1) := by
  intro d held
  have htracks : Tracks d (0 + steps.length) held := (Tracks.start tag).run hsteps
  have hget : ∀ k : Node, k.WellFormed → Option.Rel IsFormOf (d.get? k) ((held k).map (·.value)) :=
    fun k hk => htracks.at?_rel hk
  have hself : ∀ p ∈ d.entries, p.1.WellFormed ∧ p.1.eqv p.1 = true := fun p hp =>
    ⟨htracks.keyed.wellFormed p hp, eqv_refl (htracks.keyed.wellFormed p hp).distinctKeys⟩
  refine ⟨tag_run (empty tag) steps, htracks.keyed.distinct, fun k hk => ⟨hget k hk,
    sameValue_of_isFormOf (hget k hk), isSome_of_isFormOf (hget k hk)⟩,
    fun s => ⟨getText?_eq_get? d s, getThenEraseText_eq d s⟩, fun a ha => htracks.answer_rel ha,
    fun ks hks hdistinct hheld => htracks.size_eq hks hdistinct hheld, fun p hp => ?_, ?_,
    fun k v hthere => map_fst_insert hthere v⟩
  · obtain ⟨hp', hpp⟩ := hself p hp
    obtain ⟨h, hh, hkey, _⟩ := htracks.shown p hp p.1 hp' hpp
    exact ⟨h, hh, hkey⟩
  · exact htracks.ordered.imp_of_mem fun hp hq hpq =>
      hpq _ _ (hself _ hp).1 (hself _ hq).1 (hself _ hp).2 (hself _ hq).2

/-- The record of a visitor, as a smart node. -/
def visitor : Node := .identity none (.record "visitor") []

/-- A history in which a key is overwritten under its plain form, another is removed by its text and
comes back, a third does not pass a test, and the plain form is taken in between. -/
def visitorSteps : List Step :=
  [.insert visitor (ofString "1"), .insert (ofString "name") (ofString "2"),
    .insert visitor.disassemble visitor, .insert (ofString "gone") (.dict none "" []),
    .eraseText "name", .disassemble, .insert (ofString "name") visitor,
    .filter fun p => p.2.kind != .dict]

/-- The visitor has kept its place and has the value that was inserted last, the name has come in
after it, and the third key is gone. -/
theorem run_is_ordered_map_visitor : (∀ a ∈ visitorSteps, a.NamesWellFormed) ∧
    held? "log" visitorSteps visitor.disassemble = some ⟨0, visitor, visitor⟩ ∧
    held? "log" visitorSteps (ofString "name") = some ⟨6, ofString "name", visitor⟩ ∧
    held? "log" visitorSteps (ofString "gone") = none ∧
    Entries.SameValue (((empty "log").run visitorSteps).get? visitor.disassemble) (some visitor) ∧
    ((empty "log").run visitorSteps).contains (ofString "name") = true ∧
    ((empty "log").run visitorSteps).contains (ofString "gone") = false ∧
    ((empty "log").run visitorSteps).entries.map (·.1) =
      [visitor.disassemble, ofString "name"] := by
  have hsteps : ∀ a ∈ visitorSteps, a.NamesWellFormed := by decide
  have hvisitor : held? "log" visitorSteps visitor.disassemble = some ⟨0, visitor, visitor⟩ := rfl
  have hname : held? "log" visitorSteps (ofString "name") =
      some ⟨6, ofString "name", visitor⟩ := rfl
  have hgone : held? "log" visitorSteps (ofString "gone") = none := rfl
  obtain ⟨_, _, hread, _⟩ := run_is_ordered_map "log" hsteps
  refine ⟨hsteps, hvisitor, hname, hgone, ?_, ?_, ?_, rfl⟩
  · have hat := (hread visitor.disassemble (by decide)).2.1
    rw [hvisitor] at hat
    refine hat fun h hh => ?_
    cases hh
    decide
  · rw [(hread (ofString "name") (by decide)).2.2, hname]
    rfl
  · rw [(hread (ofString "gone") (by decide)).2.2, hgone]
    rfl

end Dict

end PeerRecords
