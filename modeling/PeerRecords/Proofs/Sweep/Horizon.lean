import PeerRecords.Proofs.Sweep.Stamped

/-
  One expiration for one write.
  `WrittenIn v n` says that `v` stands in `n` where a write has put it itself: at the top, as a key,
  value, element, argument or user field, at any depth, or as an address or candidate of a
  reachability check. What a claim states and what is inside a candidate is quoted, and so left out.

  Main statements:
  * `expiry_of_writtenIn`: all of these nodes have the expiration of the write.
  * `sweep_of_stamped`: a document with one expiration throughout is left whole before it and taken
    as a whole from it on, with the count of all that a sweep comes to.
  * `written_lives_and_goes_whole`: the two together, for a grammar without rules of its own.
-/

namespace PeerRecords

open Node Grammar

namespace Node

/-! ## Where a write puts its expiration -/

/-- The nodes directly in a node that a write makes of written ones: keys, values, elements,
arguments and user fields. -/
def writtenParts : Node → List Node
  | .leaf _ _ => []
  | .dict _ _ ps => entryNodes ps
  | .set _ _ es => es
  | .predicate _ _ as _ ps => as ++ entryNodes ps
  | .identity _ _ us | .claim _ _ _ _ _ us | .verify _ _ us | .reachable _ _ _ _ _ _ us =>
    entryNodes us

/-- The members of the two sets of a reachability check. -/
def addresses : Node → List Node
  | .reachable _ _ _ vs _ uvs _ => vs ++ uvs
  | _ => []

/-- `v` stands in a node where a write has put it itself. -/
inductive WrittenIn (v : Node) : Node → Prop where
  | root : WrittenIn v v
  | address {n : Node} (h : v ∈ n.addresses) : WrittenIn v n
  | part {c n : Node} (hc : c ∈ n.writtenParts) (h : WrittenIn v c) : WrittenIn v n

theorem parts_subset_writtenParts {n c : Node} (h : c ∈ n.parts) : c ∈ n.writtenParts := by
  cases n with
  | dict e t ps =>
    obtain ⟨p, hp, rfl⟩ := List.mem_map.1 h
    exact snd_mem_entryNodes hp
  | set e t es => exact h
  | _ => exact absurd h List.not_mem_nil

/-- A sweep comes only to what is written. -/
theorem Reached.writtenIn {v n : Node} (h : v.Reached n) : v.WrittenIn n := by
  induction h using Relation.ReflTransGen.head_induction_on with
  | refl => exact .root
  | head hc _ ih => exact .part (parts_subset_writtenParts hc) ih

end Node

section

variable {g : Grammar} {ctx : Context} {n m v : Node}

theorem Grammar.Made.expiry (hg : g.IsStock) (h : Made g ctx n m) : m.expiry = ctx.expiry := by
  cases h with
  | own rule hrule _ => exact absurd hrule (hg rule)
  | _ => rfl

theorem Grammar.Made.address (hg : g.IsStock) (h : Made g ctx n m) (hv : v ∈ m.addresses) :
    v.expiry = ctx.expiry := by
  cases h with
  | own rule hrule _ => exact absurd hrule (hg rule)
  | reachable _ _ _ hfound _ =>
    obtain hv | hv := List.mem_append.1 hv
    · obtain ⟨s, rfl⟩ := hfound.verified v hv
      rfl
    · obtain ⟨c, _, rfl⟩ := hfound.unverified v (List.mem_filter.1 hv).1
      exact expiry_withExpiry _ c
  | _ => exact absurd hv List.not_mem_nil

/-- What stands directly in a made node and is not quoted is made itself, in the same context. -/
theorem Grammar.Made.writtenPart (hg : g.IsStock) (h : Made g ctx n m) (hv : v ∈ m.writtenParts) :
    ∃ x : Node, (g.assemble ctx x).Yields v := by
  have hnamed : ∀ {reserved : List String} {ps us : List (Node × Node)},
      g.EntriesMade ctx reserved ps us → v ∈ entryNodes us →
      ∃ x : Node, (g.assemble ctx x).Yields v := by
    intro reserved ps us hus hv
    obtain ⟨x, _, hx⟩ := hus.mem_entryNodes hv
    exact ⟨x, hx⟩
  cases h with
  | leaf e l => exact absurd hv List.not_mem_nil
  | dict e t h => exact hnamed h hv
  | set e t h =>
    obtain ⟨x, _, hx⟩ :=
      exists_of_forall₂_right h ((NodeSet.mem_addAll hv).resolve_left List.not_mem_nil)
    exact ⟨x, hx⟩
  | predicate e t nt has h =>
    obtain hv | hv := List.mem_append.1 hv
    · obtain ⟨x, _, hx⟩ := exists_of_forall₂_right has hv
      exact ⟨x, hx⟩
    · exact hnamed h hv
  | own rule hrule _ => exact absurd hrule (hg rule)
  | identity id _ h => exact hnamed h hv
  | claim a s reserved _ _ _ _ h => exact hnamed h hv
  | verify _ _ h => exact hnamed h hv
  | reachable _ _ _ _ h => exact hnamed h hv

/-- Whatever a write has put into a document itself has the expiration of the write. -/
theorem expiry_of_writtenIn (hg : g.IsStock) (h : (g.assemble ctx n).Yields m)
    (hv : v.WrittenIn m) : v.expiry = ctx.expiry := by
  induction hv generalizing n with
  | root => exact (made_of_yields h).expiry hg
  | address hv => exact (made_of_yields h).address hg hv
  | part hc _ ih =>
    obtain ⟨x, hx⟩ := (made_of_yields h).writtenPart hg hc
    exact ih hx

end

/-- One write has one expiration. In the document that a grammar without rules of its own makes,
every node that the write has put there itself has the expiration of the context. So a sweep before
it, or any sweep if there is none, leaves the document as it is and counts nothing; a sweep from it
on leaves nothing, and counts every node that it comes to through values of dicts and elements of
sets. -/
theorem written_lives_and_goes_whole {g : Grammar} (hg : g.IsStock) {ctx : Context} {n m : Node}
    (h : (g.assemble ctx n).outcome.1 = .ok m) :
    (∀ v : Node, v.WrittenIn m → v.expiry = ctx.expiry) ∧
    (∀ now, (∀ t, ctx.expiry = some t → now < t) → m.sweep now = (some m, 0)) ∧
    ∀ t now, ctx.expiry = some t → t ≤ now → m.sweep now = (none, m.places.length) := by
  have hwritten : ∀ v : Node, v.WrittenIn m → v.expiry = ctx.expiry :=
    fun v hv => expiry_of_writtenIn hg (.of_outcome h) hv
  have hstamp : m.Stamped ctx.expiry := fun v hv => hwritten v hv.writtenIn
  refine ⟨hwritten, fun now hlive => ?_, fun t now ht hlate => ?_⟩
  · have hstays : ctx.expiry.isExpired now = false := by
      cases he : ctx.expiry with
      | none => rfl
      | some t => exact decide_eq_false (Int.not_le.2 (hlive t he))
    rw [sweep_of_stamped hstamp, hstays]
    rfl
  · have hgoes : ctx.expiry.isExpired now = true := by
      rw [ht]
      exact decide_eq_true hlate
    rw [sweep_of_stamped hstamp, hgoes]
    rfl

/-- A set, and a check of something that is no address, with older expirations on them. -/
def visitors : Node :=
  .dict none "" [(ofString "seen", .set (some 3) "" [ofString "a", .dict none "" []]),
    (ofString "at", .predicate (some 7) "reachable"
      [.predicate none "relay" [ofString "b"] "" []] ""
      [(ofString "note", ofString "x")])]

/-- Written to live until 10, it is whole at 9 and gone at 10, with the four nodes in it. -/
theorem visitors_live_and_go_whole : ∃ m,
    (standard.withProbe fun _ _ => true).IsStock ∧
    ((standard.withProbe fun _ _ => true).assemble { expiry := some 10 } visitors).outcome.1 =
      .ok m ∧
    (leaf (some 10) (.string "x")).WrittenIn m ∧ m.sweep 9 = (some m, 0) ∧
      m.sweep 10 = (none, 4) := by
  have hg : (standard.withProbe fun _ _ => true).IsStock := isStock_standard.withProbe _
  let text (s : String) := leaf (some 10) (.string s)
  let check := reachable (some 10) .dial "" [] ""
    [.predicate (some 10) "relay" [ofString "b"] "" []] [(text "note", text "x")]
  let m := dict (some 10) "" [(text "seen", .set (some 10) "" [text "a", .dict (some 10) "" []]),
    (text "at", check)]
  have hm : ((standard.withProbe fun _ _ => true).assemble { expiry := some 10 }
      visitors).outcome.1 = .ok m := rfl
  obtain ⟨_, hlive, hlate⟩ := written_lives_and_goes_whole hg hm
  refine ⟨m, hg, hm, ?_, hlive 9 fun t ht => ?_, hlate 10 10 rfl (by decide)⟩
  · exact .part (c := check) (by simp [m, writtenParts, entryNodes])
      (.part (c := text "x") (by simp [check, writtenParts, entryNodes]) .root)
  · cases ht
    decide

end PeerRecords
