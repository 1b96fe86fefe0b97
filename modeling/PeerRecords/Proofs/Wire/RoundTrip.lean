import PeerRecords.Proofs.Sendable
import PeerRecords.Proofs.Wire.Text

/-
  Reading undoes writing.
  The text of a document is read back as a plain document without expirations that is equal to it
  and lists its parts in the order of its plain form (`marshal_travels`), if nothing in it is held
  twice, no named arguments have a tag and the text is not nested deeper than the reader goes.
-/

namespace PeerRecords.Node

/-- A tree that matches a document's plain form is equal to the document. -/
theorem Matches.eqv {n m : Node} (hn : n.WellFormed) (hm : m.Tidy) (h : Matches n.disassemble m) :
    m.eqv n = true := by
  rw [eqv_iff_alike hm.2 hn, disassemble_of_isPlain hm.1]
  exact h.alike.symm

/-- What is written of a document is read as a plain document without expirations that is equal to
it, in the order of its plain form. -/
theorem marshal_travels {n : Node} (hn : n.WellFormed) (huntagged : n.Everywhere IsUntagged)
    (hlimit : n.nesting ≤ Json.nestingLimit) :
    ∃ m, unmarshal n.marshal = .ok m ∧ m.eqv n = true ∧ m.isPlain = true ∧
      (m.Everywhere fun v => v.expiry = none) ∧ Matches n.disassemble m := by
  obtain ⟨m, hread, hmatch⟩ := Wire.toNode_ofPlain (sendable_disassemble hn huntagged)
  have htidy := (Wire.sendable_of_toNode hread).tidy
  refine ⟨m, ?_, hmatch.eqv hn htidy, htidy.1, Wire.expiry_of_toNode hread, hmatch⟩
  rw [unmarshal_marshal, if_pos hlimit]
  exact hread

theorem minus_two_fits : -Scaled.scaleBound ≤ -2 ∧ (-2 : Int) < Scaled.scaleBound := by decide

/-- A document with smart nodes among its keys, values and elements, a decimal number that is
written with zeros, and expirations. -/
def visitedPeers : Node :=
  .dict (some 7) "visited"
    [(.identity (some 9) (.peer ⟨"QmA"⟩) [(ofString "since", .leaf (some 3) (.float default))],
        .set none "" [.leaf none (.float ⟨⟨150, -2⟩, minus_two_fits⟩), ofString "b", ofString "a"]),
      (ofString "left",
        .reachable (some 1) .dial "" [ofString "/tcp/80"] "" [ofString "/tcp/81"]
          [(ofString "check", .leaf none (.int (-4)))])]

theorem visitedPeers_travels :
    (visitedPeers.WellFormed ∧ visitedPeers.Everywhere IsUntagged ∧
      visitedPeers.nesting ≤ Json.nestingLimit) ∧
    ∃ m, unmarshal visitedPeers.marshal = .ok m ∧ m.eqv visitedPeers = true ∧ m.isPlain = true ∧
      (m.Everywhere fun v => v.expiry = none) ∧ Matches visitedPeers.disassemble m := by
  have hwell : visitedPeers.WellFormed := by decide +kernel
  have huntagged : visitedPeers.Everywhere IsUntagged := by decide +kernel
  have hlimit : visitedPeers.nesting ≤ Json.nestingLimit := by decide +kernel
  exact ⟨⟨hwell, huntagged, hlimit⟩, marshal_travels hwell huntagged hlimit⟩

end PeerRecords.Node
