import PeerRecords.Signature
import PeerRecords.Proofs.Node.Canonical

/-
  What is signed.
  Digests, content identifiers and signed messages go by the canonical bytes of a document, so they
  are the same for documents that are equal (`agree_of_eqv`), and a signed message belongs to one
  signer and, up to structural equality, one statement (`message_determines`). The bytes hold no tag
  of a predicate's named arguments, and a length only up to the size of a word: what is said of one
  statement is said of those without such tags whose lengths fit.
-/

namespace PeerRecords

namespace Node

theorem canonical_eq_of_eqv {a b : Node} (ha : a.WellFormed) (hb : b.WellFormed)
    (h : a.eqv b = true) : a.canonical = b.canonical :=
  plainBytes_eq_of_alike ((eqv_iff_alike ha hb).1 h)

/-- All of the plain form is written if no named arguments of the document have a tag. -/
theorem legible_disassemble {n : Node} (huntagged : n.Everywhere IsUntagged)
    (hfit : n.disassemble.Everywhere LengthsFit) : n.disassemble.Everywhere Legible :=
  fun v hv => ⟨isPlain_iff.1 (isPlain_disassemble n) v hv, untagged_disassemble huntagged v hv,
    hfit v hv⟩

end Node

namespace Signature

open Node

/-- Equal documents have the same canonical bytes and so the same digest, the same identifiers and,
from each signer, the same message. -/
theorem agree_of_eqv {a b : Node} (ha : a.WellFormed) (hb : b.WellFormed) (h : a.eqv b = true) :
    a.canonical = b.canonical ∧ a.digest = b.digest ∧ a.contentId = b.contentId ∧
      a.cidOf = b.cidOf ∧ ∀ signer, message signer a = message signer b := by
  have hbytes := canonical_eq_of_eqv ha hb h
  have hdigest : a.digest = b.digest := by rw [digest, digest, hbytes]
  have hid : a.contentId = b.contentId := by rw [contentId, contentId, hdigest]
  refine ⟨hbytes, hdigest, hid, ?_, fun signer => ?_⟩
  · rw [cidOf, cidOf, hid]
  · rw [message, message, hbytes]

/-- A document with smart nodes, expirations and a number written with zeros. -/
def visits : Node :=
  .dict (some 7) "visits"
    [(.identity (some 9) (.peer ⟨"QmA"⟩)
        [(ofString "since", .leaf (some 3) (.float ⟨⟨100, 2⟩, by decide⟩))],
      .set none "" [ofString "b", ofString "a"]),
      (ofString "left", .verify none (.identity none (.cid "x") []) [])]

/-- The same document in another order, with plain forms for two of the smart nodes. -/
def reorderedVisits : Node :=
  .dict none "visits"
    [(ofString "left", .predicate (some 1) "verify" [.identity none (.cid "x") []] "" []),
      (.predicate none "peer" [ofString "QmA"] ""
        [(ofString "since", .leaf none (.float ⟨⟨1, 0⟩, by decide⟩))],
      .set none "" [ofString "a", ofString "b"])]

theorem visits_agree :
    (visits.WellFormed ∧ reorderedVisits.WellFormed ∧ visits.eqv reorderedVisits = true) ∧
    visits.canonical = reorderedVisits.canonical ∧ visits.digest = reorderedVisits.digest ∧
      visits.contentId = reorderedVisits.contentId ∧ visits.cidOf = reorderedVisits.cidOf ∧
      ∀ signer, message signer visits = message signer reorderedVisits := by
  have hvisits : visits.WellFormed := by decide +kernel
  have hreordered : reorderedVisits.WellFormed := by decide +kernel
  have heqv : visits.eqv reorderedVisits = true := by decide +kernel
  exact ⟨⟨hvisits, hreordered, heqv⟩, agree_of_eqv hvisits hreordered heqv⟩

/-- A signed message determines its signer and statement, and canonical bytes determine a document;
none are the beginning of others. -/
theorem message_determines {p q : PeerId} {s t : Node} (hs : s.WellFormed) (ht : t.WellFormed)
    (hsuntagged : s.Everywhere IsUntagged) (htuntagged : t.Everywhere IsUntagged)
    (hsfit : s.disassemble.Everywhere LengthsFit) (htfit : t.disassemble.Everywhere LengthsFit)
    (hp : (Utf8.bytes p.name).length < UInt64.size)
    (hq : (Utf8.bytes q.name).length < UInt64.size) :
    (message p s = message q t → p = q ∧ s.eqv t = true) ∧
      (s.canonical = t.canonical → s.eqv t = true) ∧
      (s.canonical <+: t.canonical → s.canonical = t.canonical) := by
  have hdelimits := delimits_plainBytes (legible_disassemble hsuntagged hsfit)
    (legible_disassemble htuntagged htfit)
  have hcanonical : s.canonical = t.canonical → s.eqv t = true := fun h =>
    (eqv_iff_alike hs ht).2 (hdelimits [] [] (congrArg (· ++ []) h)).1
  refine ⟨fun h => ?_, hcanonical, ?_⟩
  · obtain ⟨hname, hstatement⟩ := lengthPrefixed_append_inj hp hq h
    obtain ⟨p⟩ := p
    obtain ⟨q⟩ := q
    obtain rfl : p = q := Utf8.bytes_inj hname
    exact ⟨rfl, hcanonical hstatement⟩
  · rintro ⟨rest, h⟩
    obtain rfl : rest = [] := (hdelimits rest [] (by rw [List.append_nil]; exact h)).2
    rw [← h, List.append_nil]

theorem visits_determined :
    ((visits.WellFormed ∧ reorderedVisits.WellFormed) ∧
      (visits.Everywhere IsUntagged ∧ reorderedVisits.Everywhere IsUntagged) ∧
      (visits.disassemble.Everywhere LengthsFit ∧
        reorderedVisits.disassemble.Everywhere LengthsFit) ∧
      (Utf8.bytes "QmA").length < UInt64.size) ∧
    message ⟨"QmA"⟩ visits = message ⟨"QmA"⟩ reorderedVisits ∧
      visits.eqv reorderedVisits = true := by
  have hwell : visits.WellFormed ∧ reorderedVisits.WellFormed := by decide +kernel
  have huntagged : visits.Everywhere IsUntagged ∧ reorderedVisits.Everywhere IsUntagged := by
    decide +kernel
  have hfit : visits.disassemble.Everywhere LengthsFit ∧
      reorderedVisits.disassemble.Everywhere LengthsFit := by decide +kernel
  have hname : (Utf8.bytes "QmA").length < UInt64.size := by decide +kernel
  have hmessage : message ⟨"QmA"⟩ visits = message ⟨"QmA"⟩ reorderedVisits := by decide +kernel
  have hdetermines := message_determines hwell.1 hwell.2 huntagged.1 huntagged.2 hfit.1 hfit.2
    (p := ⟨"QmA"⟩) (q := ⟨"QmA"⟩) hname hname
  exact ⟨⟨hwell, huntagged, hfit, hname⟩, hmessage, (hdetermines.1 hmessage).2⟩

end Signature

end PeerRecords
