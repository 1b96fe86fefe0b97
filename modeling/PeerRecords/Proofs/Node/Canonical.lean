import PeerRecords.Node.Canonical
import PeerRecords.Proofs.Bytes
import PeerRecords.Proofs.Decimal
import PeerRecords.Proofs.Sendable
import PeerRecords.Proofs.Text.Utf8
import Mathlib.Data.List.Sort

/-
  Canonical bytes stand for documents up to structural equality.
  One way: trees that are alike are the same but for the order of their parts, which the sorting of
  the parts' bytes undoes (`plainBytes_eq_of_alike`). The other way: the bytes of a plain tree say
  where they end. Each kind of node starts with a byte of its own, texts and lists with a length,
  and so what is written of two trees, each with anything after it, is the same only if the trees
  are alike (`delimits_plainBytes`): the induction carries both that the trees are alike and that
  what is left is the same, since neither can be had for the parts alone.
-/

namespace PeerRecords.Node

/-! ## Sorted byte strings -/

theorem bytesLe_iff {as bs : List UInt8} : bytesLe as bs = true ↔ as ≤ bs := by
  induction as generalizing bs with
  | nil => simp [bytesLe]
  | cons a as ih =>
    cases bs with
    | nil => simp [bytesLe]
    | cons b bs =>
      rw [bytesLe, List.cons_le_cons_iff]
      split
      · rename_i h
        simp [h, ih]
      · rename_i h
        simp [h]

/-- Byte strings are sorted by insertion. -/
theorem sortBytes_eq (items : List (List UInt8)) :
    sortBytes items = items.insertionSort (· ≤ ·) := by
  have hinsert : ∀ item items, insertSorted item items = List.orderedInsert (· ≤ ·) item items := by
    intro item items
    induction items with
    | nil => rfl
    | cons next items ih => simp only [insertSorted, List.orderedInsert, bytesLe_iff, ih]
  induction items with
  | nil => rfl
  | cons item items ih => rw [sortBytes, hinsert, ih, List.insertionSort_cons]

theorem perm_sortBytes (items : List (List UInt8)) : (sortBytes items).Perm items := by
  rw [sortBytes_eq]
  exact List.perm_insertionSort _ items

/-- The order of byte strings before they are sorted does not matter. -/
theorem sortBytes_eq_of_perm {xs ys : List (List UInt8)} (h : xs.Perm ys) :
    sortBytes xs = sortBytes ys := by
  have hperm : (sortBytes xs).Perm (sortBytes ys) :=
    (perm_sortBytes xs).trans (h.trans (perm_sortBytes ys).symm)
  rw [sortBytes_eq, sortBytes_eq] at hperm ⊢
  exact hperm.eq_of_pairwise (fun _ _ _ _ => List.le_antisymm) (List.pairwise_insertionSort _ _)
    (List.pairwise_insertionSort _ _)

theorem writeSorted_eq_of_perm {xs ys : List (List UInt8)} (h : xs.Perm ys) :
    writeSorted xs = writeSorted ys := by
  rw [writeSorted, writeSorted, h.length_eq, sortBytes_eq_of_perm h]

/-! ## Trees that are alike -/

/-- What is written of an entry. -/
def pairBytes (p : Node × Node) : List UInt8 := plainBytes p.1 ++ plainBytes p.2

theorem elementBytes_eq_map (ns : List Node) : elementBytes ns = ns.map plainBytes := by
  induction ns with
  | nil => rfl
  | cons n ns ih => rw [elementBytes, ih, List.map_cons]

theorem entryBytes_eq_map (ps : List (Node × Node)) : entryBytes ps = ps.map pairBytes := by
  induction ps with
  | nil => rfl
  | cons p ps ih => obtain ⟨k, v⟩ := p; rw [entryBytes, ih, List.map_cons, pairBytes]

theorem leafBytes_eq_of_alike {v w : Leaf} (h : v.alike w = true) : leafBytes v = leafBytes w := by
  cases v with
  | float d =>
    cases w with
    | float d' => rw [leafBytes, leafBytes, of_decide_eq_true h]
    | _ => cases h
  | _ => rw [of_decide_eq_true h]

theorem writeSorted_entryBytes_eq {ps qs : List (Node × Node)} (h : PairedOff AlikeEntry ps qs)
    (hps : ∀ c ∈ entryNodes ps, ∀ {d}, Alike c d → plainBytes c = plainBytes d) :
    writeSorted (entryBytes ps) = writeSorted (entryBytes qs) := by
  rw [entryBytes_eq_map, entryBytes_eq_map]
  refine writeSorted_eq_of_perm (h.perm_map fun p hp q hpq => ?_)
  rw [pairBytes, pairBytes, hps _ (fst_mem_entryNodes hp) hpq.1,
    hps _ (snd_mem_entryNodes hp) hpq.2]

/-- Trees that are alike have the same bytes. -/
theorem plainBytes_eq_of_alike {a b : Node} (h : Alike a b) : plainBytes a = plainBytes b := by
  induction a using induct_children generalizing b with
  | step a ih =>
    cases a with
    | leaf e v =>
      cases b with
      | leaf e' w => exact leafBytes_eq_of_alike h
      | _ => exact h.elim
    | dict e t ps =>
      cases b with
      | dict e' u qs =>
        obtain ⟨rfl, hps⟩ := alike_dict.1 h
        rw [plainBytes, plainBytes, writeSorted_entryBytes_eq hps ih]
      | _ => exact h.elim
    | set e t es =>
      cases b with
      | set e' u fs =>
        obtain ⟨rfl, hes⟩ := alike_set.1 h
        have hbytes : (es.map plainBytes).Perm (fs.map plainBytes) :=
          hes.perm_map fun n hn _ hnm => ih n hn hnm
        rw [plainBytes, plainBytes, elementBytes_eq_map, elementBytes_eq_map,
          writeSorted_eq_of_perm hbytes]
      | _ => exact h.elim
    | predicate e t as nt ps =>
      cases b with
      | predicate e' u bs nu qs =>
        obtain ⟨rfl, has, rfl, hps⟩ := alike_predicate.1 h
        have hargs : as.map plainBytes = bs.map plainBytes :=
          map_eq_of_forall₂ has fun n hn _ hnm => ih n (List.mem_append_left _ hn) hnm
        rw [plainBytes, plainBytes, elementBytes_eq_map, elementBytes_eq_map, hargs, has.length_eq,
          writeSorted_entryBytes_eq hps fun c hc => ih c (List.mem_append_right _ hc)]
      | _ => exact h.elim
    | identity e i us => exact h.elim
    | claim e a b s g us => exact h.elim
    | verify e s us => exact h.elim
    | reachable e m vt vs ut uvs us => exact h.elim

/-! ## Lengths that fit -/

/-- The length that the canonical bytes of a literal start with. -/
def leafLengths : Leaf → List Nat
  | .string s => [(Utf8.bytes s).length]
  | .bool _ => []
  | .blob bytes => [bytes.length]
  | .int i => [(Bytes.signed i).length]
  | .float d => [(Utf8.encode d.normal.text).length]

/-- The lengths and counts that the canonical bytes of a plain node hold for the node itself. -/
def lengths : Node → List Nat
  | .leaf _ v => leafLengths v
  | .dict _ t ps => [(Utf8.bytes t).length, ps.length]
  | .set _ t es => [(Utf8.bytes t).length, es.length]
  | .predicate _ t as _ ps => [(Utf8.bytes t).length, as.length, ps.length]
  | .identity _ _ _ | .claim _ _ _ _ _ _ | .verify _ _ _ | .reachable _ _ _ _ _ _ _ => []

/-- No length of the node is too large for the eight bytes that it is written in. -/
def LengthsFit (n : Node) : Prop := ∀ l ∈ n.lengths, l < UInt64.size

instance : DecidablePred LengthsFit := fun n =>
  inferInstanceAs (Decidable (∀ l ∈ n.lengths, l < UInt64.size))

theorem lengthsFit_dict {e : Expiry} {t : String} {ps : List (Node × Node)} :
    (dict e t ps).LengthsFit ↔ (Utf8.bytes t).length < UInt64.size ∧ ps.length < UInt64.size := by
  simp only [LengthsFit, lengths, List.forall_mem_cons, List.not_mem_nil, false_implies,
    implies_true, and_true]

theorem lengthsFit_set {e : Expiry} {t : String} {es : List Node} :
    (set e t es).LengthsFit ↔ (Utf8.bytes t).length < UInt64.size ∧ es.length < UInt64.size := by
  simp only [LengthsFit, lengths, List.forall_mem_cons, List.not_mem_nil, false_implies,
    implies_true, and_true]

theorem lengthsFit_predicate {e : Expiry} {t nt : String} {as : List Node}
    {ps : List (Node × Node)} : (predicate e t as nt ps).LengthsFit ↔
      (Utf8.bytes t).length < UInt64.size ∧ as.length < UInt64.size ∧ ps.length < UInt64.size := by
  simp only [LengthsFit, lengths, List.forall_mem_cons, List.not_mem_nil, false_implies,
    implies_true, and_true]

/-- All of the node is written: it is plain, its named arguments have no tag and its lengths fit. -/
structure Legible (n : Node) : Prop where
  plain : n.isSmart = false
  untagged : n.IsUntagged
  fits : n.LengthsFit

/-! ## What is written says where it ends -/

/-- What `f` writes of `x` and of `y`, each with anything after it, is the same only if `x` and `y`
are related and what comes after is the same. -/
def Delimits {α : Type} (f : α → List UInt8) (R : α → α → Prop) (x y : α) : Prop :=
  ∀ us vs, f x ++ us = f y ++ vs → R x y ∧ us = vs

theorem length_append_inj {n m : Nat} {us vs : List UInt8} (hn : n < UInt64.size)
    (hm : m < UInt64.size) (h : Bytes.length n ++ us = Bytes.length m ++ vs) : n = m ∧ us = vs := by
  have hlength : (Bytes.length n).length = (Bytes.length m).length := by
    rw [Bytes.length, Bytes.length, Bytes.length_bigEndian, Bytes.length_bigEndian]
  obtain ⟨hbytes, hrest⟩ := List.append_inj h hlength
  exact ⟨Bytes.length_inj hn hm hbytes, hrest⟩

theorem lengthPrefixed_append_inj {bs cs us vs : List UInt8} (hb : bs.length < UInt64.size)
    (hc : cs.length < UInt64.size) (h : lengthPrefixed bs ++ us = lengthPrefixed cs ++ vs) :
    bs = cs ∧ us = vs := by
  rw [lengthPrefixed, lengthPrefixed, List.append_assoc, List.append_assoc] at h
  obtain ⟨hlength, hrest⟩ := length_append_inj hb hc h
  exact List.append_inj hrest hlength

section Lists

variable {α : Type} {f : α → List UInt8} {R : α → α → Prop} {xs ys : List α} {us vs : List UInt8}

/-- As many items one after the other, each of which says where it ends. -/
theorem flatten_append_inj (hf : ∀ x ∈ xs, ∀ y ∈ ys, Delimits f R x y)
    (hlength : xs.length = ys.length)
    (h : (xs.map f).flatten ++ us = (ys.map f).flatten ++ vs) :
    List.Forall₂ R xs ys ∧ us = vs := by
  induction xs generalizing ys with
  | nil =>
    obtain rfl := List.length_eq_zero_iff.1 hlength.symm
    exact ⟨.nil, h⟩
  | cons x xs ih =>
    cases ys with
    | nil => cases hlength
    | cons y ys =>
      simp only [List.map_cons, List.flatten_cons, List.append_assoc] at h
      obtain ⟨hxy, hrest⟩ := hf x List.mem_cons_self y List.mem_cons_self _ _ h
      obtain ⟨hxys, hend⟩ := ih
        (fun x' hx y' hy => hf x' (List.mem_cons_of_mem _ hx) y' (List.mem_cons_of_mem _ hy))
        (Nat.succ.inj hlength) hrest
      exact ⟨.cons hxy hxys, hend⟩

/-- Byte strings in order are those of the items in some order. -/
theorem exists_sorted (f : α → List UInt8) (xs : List α) :
    ∃ zs : List α, zs.Perm xs ∧ sortBytes (xs.map f) = zs.map f := by
  have hmap : List.Forall₂ (fun bytes x => bytes = f x) (xs.map f) xs :=
    List.forall₂_map_left_iff.2 (List.forall₂_same.2 fun _ _ => rfl)
  obtain ⟨zs, hzs, hperm⟩ := List.perm_comp_forall₂ (perm_sortBytes (xs.map f)) hmap
  refine ⟨zs, hperm, ?_⟩
  rw [← List.forall₂_eq_eq_eq]
  exact List.forall₂_map_right_iff.2 hzs

/-- Counted and sorted items are paired off with those that are written the same. -/
theorem writeSorted_append_inj (hf : ∀ x ∈ xs, ∀ y ∈ ys, Delimits f R x y)
    (hx : xs.length < UInt64.size) (hy : ys.length < UInt64.size)
    (h : writeSorted (xs.map f) ++ us = writeSorted (ys.map f) ++ vs) :
    PairedOff R xs ys ∧ us = vs := by
  obtain ⟨xs', hxs, hsorted⟩ := exists_sorted f xs
  obtain ⟨ys', hys, hsorted'⟩ := exists_sorted f ys
  rw [writeSorted, writeSorted, hsorted, hsorted', List.length_map, List.length_map,
    List.append_assoc, List.append_assoc] at h
  obtain ⟨hlength, hitems⟩ := length_append_inj hx hy h
  have hlength' : xs'.length = ys'.length := by rw [hxs.length_eq, hys.length_eq, hlength]
  obtain ⟨hpairs, hrest⟩ := flatten_append_inj
    (fun x hx y hy => hf x (hxs.mem_iff.1 hx) y (hys.mem_iff.1 hy)) hlength' hitems
  exact ⟨.of_perm hpairs hxs hys, hrest⟩

end Lists

/-! ## Nodes -/

theorem delimits_leafBytes {v w : Leaf} (hv : ∀ l ∈ leafLengths v, l < UInt64.size)
    (hw : ∀ l ∈ leafLengths w, l < UInt64.size) :
    Delimits leafBytes (fun v w => v.alike w = true) v w := by
  intro us vs h
  cases v with
  | string s =>
    cases w with
    | string s' =>
      obtain ⟨hbytes, hrest⟩ := lengthPrefixed_append_inj (hv _ List.mem_cons_self)
        (hw _ List.mem_cons_self) (List.cons.inj h).2
      rw [Utf8.bytes_inj hbytes]
      exact ⟨leaf_alike_refl _, hrest⟩
    | _ => simp [leafBytes] at h
  | bool b =>
    cases w with
    | bool b' => cases b <;> cases b' <;> simp_all [leafBytes, Leaf.alike]
    | _ => simp [leafBytes] at h
  | blob bytes =>
    cases w with
    | blob bytes' =>
      obtain ⟨rfl, hrest⟩ := lengthPrefixed_append_inj (hv _ List.mem_cons_self)
        (hw _ List.mem_cons_self) (List.cons.inj h).2
      exact ⟨leaf_alike_refl _, hrest⟩
    | _ => simp [leafBytes] at h
  | int i =>
    cases w with
    | int i' =>
      obtain ⟨hbytes, hrest⟩ := lengthPrefixed_append_inj (hv _ List.mem_cons_self)
        (hw _ List.mem_cons_self) (List.cons.inj h).2
      rw [Bytes.signed_injective hbytes]
      exact ⟨leaf_alike_refl _, hrest⟩
    | _ => simp [leafBytes] at h
  | float d =>
    cases w with
    | float d' =>
      obtain ⟨hbytes, hrest⟩ := lengthPrefixed_append_inj (hv _ List.mem_cons_self)
        (hw _ List.mem_cons_self) (List.cons.inj h).2
      have hnormal := Scaled.normal_eq_of_text_eq (Utf8.encode_inj hbytes)
      rw [Scaled.normal_normal, Scaled.normal_normal] at hnormal
      exact ⟨decide_eq_true hnormal, hrest⟩
    | _ => simp [leafBytes] at h

theorem delimits_pairBytes {p q : Node × Node} (hkey : Delimits plainBytes Alike p.1 q.1)
    (hvalue : Delimits plainBytes Alike p.2 q.2) : Delimits pairBytes AlikeEntry p q := by
  intro us vs h
  rw [pairBytes, pairBytes, List.append_assoc, List.append_assoc] at h
  obtain ⟨hk, hrest⟩ := hkey _ _ h
  obtain ⟨hv, hend⟩ := hvalue _ _ hrest
  exact ⟨⟨hk, hv⟩, hend⟩

theorem writeSorted_entryBytes_append_inj {ps qs : List (Node × Node)} {us vs : List UInt8}
    (hf : ∀ k ∈ entryNodes ps, ∀ l ∈ entryNodes qs, Delimits plainBytes Alike k l)
    (hp : ps.length < UInt64.size) (hq : qs.length < UInt64.size)
    (h : writeSorted (entryBytes ps) ++ us = writeSorted (entryBytes qs) ++ vs) :
    PairedOff AlikeEntry ps qs ∧ us = vs := by
  rw [entryBytes_eq_map, entryBytes_eq_map] at h
  refine writeSorted_append_inj (fun p hp q hq => delimits_pairBytes ?_ ?_) hp hq h
  · exact hf _ (fst_mem_entryNodes hp) _ (fst_mem_entryNodes hq)
  · exact hf _ (snd_mem_entryNodes hp) _ (snd_mem_entryNodes hq)

/-- The byte that what is written of a plain node starts with. -/
def mark : Node → UInt8
  | .leaf _ (.string _) => 1
  | .leaf _ (.bool _) => 2
  | .leaf _ (.blob _) => 3
  | .leaf _ (.int _) => 4
  | .leaf _ (.float _) => 5
  | .dict _ _ _ => 6
  | .set _ _ _ => 7
  | .predicate _ _ _ _ _ => 8
  | .identity _ _ _ | .claim _ _ _ _ _ _ | .verify _ _ _ | .reachable _ _ _ _ _ _ _ => 0

theorem head?_plainBytes {n : Node} (h : n.isSmart = false) :
    (plainBytes n).head? = some (mark n) := by
  cases n with
  | leaf e v => cases v <;> rfl
  | dict e t ps => rfl
  | set e t es => rfl
  | predicate e t as nt ps => rfl
  | identity e i us => cases h
  | claim e a b s g us => cases h
  | verify e s us => cases h
  | reachable e m vt vs ut uvs us => cases h

theorem mark_eq_of_append {a b : Node} {us vs : List UInt8} (ha : a.isSmart = false)
    (hb : b.isSmart = false) (h : plainBytes a ++ us = plainBytes b ++ vs) : mark a = mark b := by
  have hhead := congrArg List.head? h
  rw [List.head?_append, List.head?_append, head?_plainBytes ha, head?_plainBytes hb] at hhead
  exact Option.some.inj hhead

/-- What is written of two trees, each with anything after it, is the same only if the trees are
alike and what comes after is the same. -/
theorem delimits_plainBytes {a b : Node} (ha : a.Everywhere Legible) (hb : b.Everywhere Legible) :
    Delimits plainBytes Alike a b := by
  induction a using induct_children generalizing b with
  | step a ih =>
    intro us vs h
    -- Equal marks leave trees of one kind. What each of its parts takes up is then split off from
    -- the front, the length or count first, and what is left over goes on to the next part.
    have hmark := mark_eq_of_append ha.self.plain hb.self.plain h
    have hchildren : ∀ c ∈ a.children, ∀ d ∈ b.children, Delimits plainBytes Alike c d :=
      fun c hc d hd => ih c hc (ha.child hc) (hb.child hd)
    cases a with
    | leaf e v =>
      cases b with
      | leaf e' w => exact delimits_leafBytes ha.self.fits hb.self.fits us vs h
      | _ => cases v <;> simp [mark] at hmark
    | dict e t ps =>
      cases b with
      | dict e' u qs =>
        obtain ⟨ht, hps⟩ := lengthsFit_dict.1 ha.self.fits
        obtain ⟨hu, hqs⟩ := lengthsFit_dict.1 hb.self.fits
        simp only [plainBytes, List.cons_append, List.append_assoc] at h
        obtain ⟨htag, hrest⟩ := lengthPrefixed_append_inj ht hu (List.cons.inj h).2
        obtain ⟨hpairs, hend⟩ := writeSorted_entryBytes_append_inj hchildren hps hqs hrest
        exact ⟨alike_dict.2 ⟨Utf8.bytes_inj htag, hpairs⟩, hend⟩
      | leaf e' w => cases w <;> simp [mark] at hmark
      | _ => simp [mark] at hmark
    | set e t es =>
      cases b with
      | set e' u fs =>
        obtain ⟨ht, hes⟩ := lengthsFit_set.1 ha.self.fits
        obtain ⟨hu, hfs⟩ := lengthsFit_set.1 hb.self.fits
        simp only [plainBytes, List.cons_append, List.append_assoc, elementBytes_eq_map] at h
        obtain ⟨htag, hrest⟩ := lengthPrefixed_append_inj ht hu (List.cons.inj h).2
        obtain ⟨hitems, hend⟩ := writeSorted_append_inj hchildren hes hfs hrest
        exact ⟨alike_set.2 ⟨Utf8.bytes_inj htag, hitems⟩, hend⟩
      | leaf e' w => cases w <;> simp [mark] at hmark
      | _ => simp [mark] at hmark
    | predicate e t as nt ps =>
      cases b with
      | predicate e' u bs nu qs =>
        obtain ⟨ht, has, hps⟩ := lengthsFit_predicate.1 ha.self.fits
        obtain ⟨hu, hbs, hqs⟩ := lengthsFit_predicate.1 hb.self.fits
        have hnamed : nt = nu := ha.self.untagged.trans hb.self.untagged.symm
        simp only [plainBytes, List.cons_append, List.append_assoc, elementBytes_eq_map] at h
        obtain ⟨htag, hrest⟩ := lengthPrefixed_append_inj ht hu (List.cons.inj h).2
        obtain ⟨hcount, hrest⟩ := length_append_inj has hbs hrest
        obtain ⟨hargs, hrest⟩ := flatten_append_inj
          (fun c hc d hd => hchildren c (List.mem_append_left _ hc) d (List.mem_append_left _ hd))
          hcount hrest
        obtain ⟨hpairs, hend⟩ := writeSorted_entryBytes_append_inj
          (fun c hc d hd => hchildren c (List.mem_append_right _ hc) d (List.mem_append_right _ hd))
          hps hqs hrest
        exact ⟨alike_predicate.2 ⟨Utf8.bytes_inj htag, hargs, hnamed, hpairs⟩, hend⟩
      | leaf e' w => cases w <;> simp [mark] at hmark
      | _ => simp [mark] at hmark
    | identity e i us => cases ha.self.plain
    | claim e a b s g us => cases ha.self.plain
    | verify e s us => cases ha.self.plain
    | reachable e m vt vs ut uvs us => cases ha.self.plain

end PeerRecords.Node
