import PeerRecords.Proofs.Assertion
import PeerRecords.Proofs.Projection
import PeerRecords.Proofs.Rechecking
import PeerRecords.Proofs.Merge.LastWriterWins
import PeerRecords.Proofs.Wire.Rereading

/-
  What keeps documents well-formed.
  Of the operations on documents only the sweep can make two keys or two elements equal. What is
  read from bytes is well-formed, and what is assembled, updated, merged, projected or disassembled
  is if its operands are; on such operands a debug build never finds a key twice
  (`wellFormed_kept`).
-/

namespace PeerRecords

open Node Grammar
open Entries (AreWellFormed)

/-! ## Projections -/

namespace Dict

/-- Entries taken of well-formed ones are well-formed, if each value of the selector takes such. -/
theorem wellFormed_projectEntries {source sel : List (Node × Node)} (hsource : AreWellFormed source)
    (hsel : AreWellFormed sel)
    (hvalues : ∀ q ∈ sel, ∀ found n : Node, found.WellFormed → projectValue q.2 found = some n →
      n.WellFormed) : AreWellFormed (projectEntries source [] sel) := by
  have hkeys := sublist_keys_taken source sel
  rw [projectEntries_eq_filterMap source hsel.distinct]
  refine ⟨⟨?_, areDistinct_sublist hkeys hsel.distinct⟩, fun r hr => ?_⟩
  · have hwf := List.forall_mem_map.2 hsel.wellFormed
    exact List.forall_mem_map.1 fun k hk => hwf k (hkeys.subset hk)
  · obtain ⟨q, hq, hr⟩ := List.mem_filterMap.1 hr
    obtain ⟨_, found, hfound, hvalue⟩ := taken?_eq_some_iff.1 hr
    obtain ⟨p, hp, _, rfl⟩ := Entries.mem_of_at? hfound
    exact hvalues q hq p.2 r.2 (hsource.values p hp) hvalue

theorem wellFormed_projectValue {want found n : Node} (hwant : want.WellFormed)
    (hfound : found.WellFormed) (h : projectValue want found = some n) : n.WellFormed := by
  induction want using induct_want generalizing found n with
  | whole want hne =>
    obtain ⟨_, rfl⟩ := (projectValue_iff_of_ne hne).1 h
    exact hfound
  | part e t p sel ih =>
    obtain ⟨e', u, ps, rfl, rfl⟩ := projectValue_dict_iff.1 h
    have hsel := wellFormed_dict_iff.1 hwant
    exact wellFormed_dict_iff.2 (wellFormed_projectEntries (wellFormed_dict_iff.1 hfound) hsel
      fun q hq _ _ hf hn => ih q hq (hsel.values q hq) hf hn)

/-- The part of a well-formed dict that a well-formed selector asks for is well-formed. -/
theorem wellFormed_project {source selector : Dict} {e : Expiry}
    (hsource : (source.toNode e).WellFormed) (hselector : (selector.toNode e).WellFormed) :
    ((source.project selector).toNode e).WellFormed := by
  have hsel := wellFormed_dict_iff.1 hselector
  exact wellFormed_dict_iff.2 (wellFormed_projectEntries (wellFormed_dict_iff.1 hsource) hsel
    fun q hq _ _ hf hn => wellFormed_projectValue (hsel.values q hq) hf hn)

end Dict

/-! ## All operations but the sweep -/

/-- What is read from bytes is well-formed. So is what well-formed documents are assembled to, by a
grammar without rules of its own, such as the standard one with any keyring and probe; what they are
updated to; what they are merged to, in whatever monad, if the resolver makes well-formed documents
of such; and what they are projected and disassembled to. In a debug build, where every dict that an
update or a merge puts together is asserted to repeat no key, well-formed documents are updated and
merged as they are without: the assertion never fails. -/
theorem wellFormed_kept {m : Type → Type} [Monad m] [LawfulMonad m] :
    (∀ (bytes : List UInt8) (n : Node), unmarshal bytes = .ok n → n.WellFormed) ∧
    (∀ (g : Grammar) (ctx : Context) (n r : Node), g.IsStock → n.WellFormed →
      (g.assemble ctx n).Yields r → r.WellFormed) ∧
    (∀ a b : Node, a.WellFormed → b.WellFormed →
      (∀ r, a.update b = .ok r → r.WellFormed) ∧
      (updateAsserting a b).run = some <$> a.update b) ∧
    (∀ (resolve : Resolver m) (a b : Node), a.WellFormed → b.WellFormed →
      ((∀ x y : Node, x.WellFormed → y.WellFormed → SatisfiesM WellFormed (resolve x y)) →
        SatisfiesM WellFormed (merge resolve a b)) ∧
      (mergeAsserting resolve a b).run = some <$> merge resolve a b) ∧
    (∀ (source selector : Dict) (e : Expiry), (source.toNode e).WellFormed →
      (selector.toNode e).WellFormed → ((source.project selector).toNode e).WellFormed) ∧
    (∀ n : Node, n.WellFormed → n.disassemble.WellFormed) := by
  refine ⟨fun bytes n h => (sendable_of_unmarshal h).tidy.2, ?_, ?_, ?_, ?_, fun n hn =>
    hn.disassemble⟩
  · exact fun g ctx n r hg hn h => wellFormed_of_yields (hg.upholds _) hn h
  · exact fun a b ha hb => ⟨fun r h => ha.update hb h, goesAs_update ha hb⟩
  · exact fun resolve a b ha hb => ⟨fun hresolve => satisfiesM_merge hresolve ha hb,
      goesAs_merge ha hb⟩
  · exact fun source selector e hs hsel => Dict.wellFormed_project hs hsel

/-- The last writer wins, and the conflicts are counted. -/
def Resolver.countingConflicts : Resolver (StateT Nat (Except Error)) := fun _ b => do
  modify (· + 1)
  pure b

/-- A text with an element twice is read, a notice assembled, a number and a note updated and
merged, with two conflicts, and a part of a dict taken. -/
theorem wellFormed_kept_notice :
    (∃ n, unmarshal looseText = .ok n ∧ n.WellFormed) ∧
    (∃ r, (((standard.withKeyring localKeyring).withProbe oneAddress).assemble {}
      notice).outcome.1 = .ok r ∧ r.WellFormed ∧ r.disassemble.WellFormed) ∧
    (let a := numberAndNote (some 5) 1 "old" false
     let b := numberAndNote (some 9) 2 "new" true
     (∃ u, a.update b = .ok u ∧ u.WellFormed ∧ (updateAsserting a b).run = .ok (some u)) ∧
     ∃ r, (merge .countingConflicts a b).run 0 = .ok (r, 2) ∧ r.WellFormed ∧
      (mergeAsserting .countingConflicts a b).run.run 0 = .ok (some r, 2)) ∧
    ((Dict.profile.project Dict.glimpse).toNode none).WellFormed := by
  obtain ⟨hread, hassembled, hupdated, hmerged, hprojected, hplain⟩ :=
    wellFormed_kept (m := StateT Nat (Except Error))
  have ha : (numberAndNote (some 5) 1 "old" false).WellFormed := by decide
  have hb : (numberAndNote (some 9) 2 "new" true).WellFormed := by decide
  refine ⟨?_, ?_, ⟨?_, ?_⟩, ?_⟩
  · have hok : (unmarshal looseText).toOption.isSome = true := by decide +kernel
    obtain ⟨n, hn⟩ := Option.isSome_iff_exists.1 hok
    exact ⟨n, toOption_eq_some.1 hn, hread _ n (toOption_eq_some.1 hn)⟩
  · have hok : (((standard.withKeyring localKeyring).withProbe oneAddress).assemble {}
        notice).outcome.1.toOption.isSome = true := by decide +kernel
    obtain ⟨r, hr⟩ := Option.isSome_iff_exists.1 hok
    have hr := toOption_eq_some.1 hr
    have hwf := hassembled _ _ _ r ((isStock_standard.withKeyring _).withProbe _) (by decide)
      (.of_outcome hr)
    exact ⟨r, hr, hwf, hplain r hwf⟩
  · obtain ⟨u, hu⟩ : ∃ u, (numberAndNote (some 5) 1 "old" false).update
        (numberAndNote (some 9) 2 "new" true) = .ok u := ⟨_, rfl⟩
    obtain ⟨hwf, hruns⟩ := hupdated _ _ ha hb
    exact ⟨u, hu, hwf u hu, hruns.trans (by rw [hu]; rfl)⟩
  · obtain ⟨r, hr⟩ : ∃ r, (merge .countingConflicts (numberAndNote (some 5) 1 "old" false)
        (numberAndNote (some 9) 2 "new" true)).run 0 = .ok (r, 2) := ⟨_, rfl⟩
    obtain ⟨hwf, hruns⟩ := hmerged .countingConflicts _ _ ha hb
    have hresolver : ∀ x y : Node, x.WellFormed → y.WellFormed →
        SatisfiesM WellFormed (Resolver.countingConflicts x y) :=
      fun x y _ hy => SatisfiesM.bind .trivial fun _ _ => .pure hy
    have hresults := SatisfiesM_StateT_eq.1 (hwf hresolver) 0
    refine ⟨r, hr, SatisfiesM_Except_eq.1 hresults _ hr, ?_⟩
    rw [hruns, StateT.run_map, hr]
    rfl
  · exact hprojected _ _ none (by decide) (by decide)

end PeerRecords
